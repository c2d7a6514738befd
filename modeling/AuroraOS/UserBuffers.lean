/-
# What system calls store in user memory

`system_read`, `system_getargs` and `system_vidmap` store to addresses that the user program
chooses.  `nbytes` is signed at the system call, but `read_data`, `strncpy` and the comparison
with `strlen` take it as unsigned: a negative number is a huge one there.

A call stores its bytes side by side from the pointer on, so it stays inside a buffer of
`n` bytes exactly when it stores at most `n`.
-/
import AuroraOS.System
import AuroraOS.KeyQueue
import AuroraOS.Directory
import AuroraOS.Memory

namespace AuroraOS

open Machine

/-- What a system call returns, and the bytes it stores from the pointer on. -/
structure UserWrite where
  ret : ℤ
  bytes : List UInt8

/-! ## The calls -/

/-- `VIDMAP_USER_START_ADDR`. -/
abbrev vidmapUserStartAddr : BitVec 32 := 0x08400000 + 0xBF * 4096

/-- The end of `system_terminal_read` with `i` characters: `memcpy(buf, key_buf, i)`. -/
def Terminal.copyOut (t : Terminal) (i : ℕ) : UserWrite where
  ret := i
  bytes := (List.range i).map t.keyBuf

theorem Terminal.readEnd_bytes {t t' : Terminal} {i : ℕ} {bytes : List UInt8}
    (h : t.readEnd i = .ok (bytes, t')) : bytes = (t.copyOut i).bytes := by
  rw [readEnd] at h
  by_cases hi : i < keyboardBufSize
  · rw [if_pos hi] at h
    obtain ⟨buf, -, h⟩ := bind_eq_ok.mp h
    exact (Prod.mk.inj (Except.ok.inj h)).1.symm
  · rw [if_neg hi] at h
    cases h

namespace Kernel

variable (k : Kernel) (img : FsImage)

/-- `system_terminal_read`; `later` is the terminal as the call finds it when it has slept. -/
def terminalReadWrite (later : Terminal) (nbytes : ℤ) : UserWrite :=
  let nbytes := Terminal.limitBytes nbytes
  match (k.term k.runningTask.terminal).readBegin nbytes with
  | (term, some i) => term.copyOut i
  | (_, none) => later.copyOut (later.scan nbytes).1

/-- `system_read`. -/
def readWrite (later : Terminal) (fd : ℤ) (bufNull : Bool) (nbytes : ℤ) : UserWrite :=
  match k.runningTask.fileArray.systemRead img fd bufNull nbytes with
  | .done ret bytes _ => { ret := ret, bytes := bytes }
  | .terminal => k.terminalReadWrite later nbytes
  | .rtc => { ret := if k.runningTask.rtc.targetFreq = -1 then -1 else 0, bytes := [] }

/-- `system_getargs`. -/
def getargsWrite (nbytes : ℤ) : UserWrite :=
  match k.runningTask.args with
  | none => { ret := -1, bytes := [] }
  | some args =>
    if (strlen args : ℤ) ≥ nbytes % 2 ^ 32 then { ret := -1, bytes := [] }
    else { ret := 0, bytes := strncpy args (nbytes % 2 ^ 32).toNat }

/-- `system_vidmap`: it stores a pointer. -/
def vidmapWrite (screenStart : BitVec 32) : UserWrite :=
  if screenStart.toInt < taskImgStart ∨ screenStart.toInt ≥ taskImgEnd then
    { ret := -1, bytes := [] }
  else
    match k.runningTask.terminal with
    | none => { ret := -1, bytes := [] }
    | some _ => { ret := 0, bytes := (List.range 4).map (Memory.byteOf vidmapUserStartAddr) }

/-! ### The same calls in the kernel -/

theorem systemGetargs_eq (nbytes : ℤ) :
    k.systemGetargs nbytes = k.ret (k.getargsWrite nbytes).ret := by
  unfold systemGetargs getargsWrite
  rcases k.runningTask.args with _ | args
  · rfl
  · by_cases hlen : (strlen args : ℤ) ≥ nbytes % 2 ^ 32
    · simp only [if_pos hlen]
    · simp only [if_neg hlen]

theorem systemVidmap_eax (screenStart : BitVec 32) :
    (k.systemVidmap screenStart).eax = BitVec.ofInt 32 (k.vidmapWrite screenStart).ret := by
  unfold systemVidmap vidmapWrite
  split_ifs
  · rfl
  · rcases k.runningTask.terminal with _ | t <;> rfl

/-- A read of a file or of the directory. -/
theorem systemRead_eax {noise : Noise} {fd : ℤ} {bufNull : Bool} {nbytes ret : ℤ}
    {bytes : List UInt8} {fa : FileArray} (later : Terminal)
    (hdone : k.runningTask.fileArray.systemRead img fd bufNull nbytes = .done ret bytes fa) :
    ∃ k', k.systemRead img noise fd bufNull nbytes = .ok k' ∧
      k'.eax = BitVec.ofInt 32 (k.readWrite img later fd bufNull nbytes).ret := by
  refine ⟨(k.modifyTask k.running fun t => { t with fileArray := fa }).ret ret, ?_, ?_⟩
  · unfold systemRead
    rw [hdone]
  · unfold readWrite
    rw [hdone]
    rfl

/-- The end of a terminal read, at once or behind its sleep. -/
theorem terminalReadEnd_eax {i : ℕ} {k' : Kernel} (h : k.terminalReadEnd i = .ok k') :
    k'.eax = BitVec.ofInt 32 ((k.term k.runningTask.terminal).copyOut i).ret ∧
      ∃ term, (k.term k.runningTask.terminal).readEnd i =
        .ok (((k.term k.runningTask.terminal).copyOut i).bytes, term) := by
  unfold terminalReadEnd at h
  obtain ⟨⟨bytes, term⟩, hend, h⟩ := bind_eq_ok.mp h
  obtain rfl := Except.ok.inj h
  exact ⟨rfl, term, Terminal.readEnd_bytes hend ▸ hend⟩

end Kernel

/-! ## Inside the buffer -/

/-- The call returns at most `nbytes`, and stores inside the buffer of `nbytes` bytes. -/
def UserWrite.Inside (w : UserWrite) (nbytes : ℤ) : Prop :=
  w.ret ≤ max nbytes 0 ∧ (w.bytes.length : ℤ) ≤ max nbytes 0

theorem UserWrite.inside_fail (nbytes : ℤ) :
    ({ ret := -1, bytes := [] } : UserWrite).Inside nbytes := by
  constructor
  · show (-1 : ℤ) ≤ max nbytes 0
    omega
  · show ((0 : ℕ) : ℤ) ≤ max nbytes 0
    omega

/-- A number of bytes as the code takes it in an unsigned variable. -/
theorem toNat_toInt (n : BitVec 32) : (n.toInt % 2 ^ 32).toNat = n.toNat := by
  have h := n.isLt
  rw [BitVec.toInt_eq_toNat_cond]
  split_ifs <;> omega

/-- A negative number of bytes is not 0 as an unsigned one. -/
theorem toNat_pos_of_neg {n : BitVec 32} (h : n.toInt < 0) : 0 < n.toNat := by
  rw [BitVec.toInt_eq_toNat_cond] at h
  split_ifs at h <;> omega

theorem toInt_eq_toNat {n : BitVec 32} (h : 0 ≤ n.toInt) : n.toInt = n.toNat := by
  have hlt := n.isLt
  rw [BitVec.toInt_eq_toNat_cond] at h ⊢
  split_ifs at h ⊢ <;> omega

/-! ### Files -/

namespace FsImage

variable (img : FsImage)

/-- `read_data` finds a byte at the offset. -/
def HasByte (inode offset : ℕ) : Prop :=
  inode < img.inodeNum ∧
    (img.inodes inode).dataBlockNum (offset / fileBlockSize) < img.dataBlockNum ∧
    offset < (img.inodes inode).lengthInBytes

variable {img}

/-- The loop of `read_data` delivers at most as many bytes as it is asked for. -/
theorem length_readLoop (inode : Inode) : ∀ n offset index num blockOffset,
    (img.readLoop inode n offset index num blockOffset).length ≤ n := by
  intro n
  induction n with
  | zero =>
    intro offset index num blockOffset
    exact le_rfl
  | succ n ih =>
    intro offset index num blockOffset
    rw [readLoop]
    split_ifs
    · exact Nat.zero_le _
    · simp only
      split_ifs
      · exact Nat.succ_le_succ (Nat.zero_le n)
      · exact Nat.succ_le_succ (ih _ _ _ _)
    · exact Nat.succ_le_succ (ih _ _ _ _)

theorem length_readData {inode offset n : ℕ} {bytes : List UInt8}
    (h : img.readData inode offset n = some bytes) : bytes.length ≤ n := by
  rw [readData] at h
  split_ifs at h
  simp only at h
  split_ifs at h
  obtain rfl := Option.some.inj h
  exact length_readLoop _ _ _ _ _ _

/-- When it is asked for something, `read_data` delivers something exactly when there is a
byte at the offset. -/
theorem readData_nonempty {inode offset n : ℕ} (hn : 0 < n) :
    (∃ c bytes, img.readData inode offset n = some (c :: bytes)) ↔ img.HasByte inode offset := by
  obtain ⟨n, rfl⟩ := Nat.exists_eq_succ_of_ne_zero (Nat.pos_iff_ne_zero.mp hn)
  unfold HasByte readData
  by_cases hin : img.inodeNum ≤ inode
  · rw [if_pos hin]
    simp only [reduceCtorEq, exists_false, false_iff, not_and]
    omega
  by_cases hnum : img.dataBlockNum ≤ (img.inodes inode).dataBlockNum (offset / fileBlockSize)
  · simp only [if_neg hin, if_pos hnum, reduceCtorEq, exists_false, false_iff, not_and]
    omega
  simp only [if_neg hin, if_neg hnum, Option.some.injEq]
  rw [readLoop]
  by_cases hlen : (img.inodes inode).lengthInBytes ≤ offset
  · simp only [if_pos hlen, reduceCtorEq, exists_false, false_iff, not_and]
    omega
  · rw [if_neg hlen]
    refine ⟨fun _ => by omega, fun _ => ?_⟩
    simp only
    split_ifs <;> exact ⟨_, _, rfl⟩

end FsImage

namespace FileArray

variable (fa : FileArray) (img : FsImage) (fd : Fin 8)

/-- What a read of `n` bytes delivers is inside the buffer, unless `n` is negative and there
is something to deliver. -/
theorem readData_inside {img : FsImage} {inode offset : ℕ} (n : BitVec 32) {bytes : List UInt8}
    (hread : img.readData inode offset n.toNat = some bytes) :
    (bytes.length : ℤ) ≤ max n.toInt 0 ↔ (n.toInt < 0 → ¬img.HasByte inode offset) := by
  have hlen := FsImage.length_readData hread
  by_cases hneg : n.toInt < 0
  · rw [← FsImage.readData_nonempty (toNat_pos_of_neg hneg), hread]
    rcases bytes with _ | ⟨c, bytes⟩
    · simp
    · simp only [List.length_cons, hneg, Option.some.injEq, List.cons.injEq, exists_and_left,
        exists_eq', and_true, not_true_eq_false, imp_false, iff_false]
      omega
  · rw [toInt_eq_toNat (by omega)]
    constructor
    · intro _ h
      omega
    · intro _
      omega

/-- The `int32_t` of a length is at most the length. -/
theorem toInt_ofNat_le (m : ℕ) : (BitVec.ofNat 32 m).toInt ≤ m := by
  have hmod := Nat.mod_le m (2 ^ 32)
  rw [BitVec.toInt_eq_toNat_cond, BitVec.toNat_ofNat]
  split_ifs <;> omega

/-- What `file_read` returns and stores. -/
theorem fileRead_inside (n : BitVec 32) {ret : ℤ} {bytes : List UInt8} {fa' : FileArray}
    (h : fa.fileRead img fd n.toInt = .done ret bytes fa') :
    ({ ret := ret, bytes := bytes } : UserWrite).Inside n.toInt ↔
      (n.toInt < 0 → ¬img.HasByte (fa.openedFiles fd).inode (fa.openedFiles fd).filePosition) := by
  unfold fileRead at h
  rw [toNat_toInt] at h
  simp only at h
  generalize hread : img.readData (fa.openedFiles fd).inode (fa.openedFiles fd).filePosition
    n.toNat = read at h
  rcases read with _ | delivered
  · obtain ⟨rfl, rfl, -⟩ := ReadCall.done.inj h
    refine iff_of_true (UserWrite.inside_fail _) fun hneg => ?_
    rw [← FsImage.readData_nonempty (toNat_pos_of_neg hneg), hread]
    simp
  · have hret : ret ≤ delivered.length ∧ bytes = delivered := by
      by_cases hfail : (BitVec.ofNat 32 delivered.length).toInt = -1
      · simp only [if_pos hfail] at h
        obtain ⟨rfl, rfl, -⟩ := ReadCall.done.inj h
        exact ⟨by omega, rfl⟩
      · simp only [if_neg hfail] at h
        obtain ⟨rfl, rfl, -⟩ := ReadCall.done.inj h
        exact ⟨toInt_ofNat_le _, rfl⟩
    obtain ⟨hle, rfl⟩ := hret
    rw [← readData_inside n hread]
    exact ⟨fun hin => hin.2, fun hin => ⟨hle.trans hin, hin⟩⟩

/-- What `dir_read` returns and stores. -/
theorem dirRead_inside (n : BitVec 32) {ret : ℤ} {bytes : List UInt8} {fa' : FileArray}
    (h : fa.dirRead img fd n.toInt = .done ret bytes fa') :
    ({ ret := ret, bytes := bytes } : UserWrite).Inside n.toInt ↔
      (n.toInt < 0 → img.dirNum ≤ (fa.openedFiles fd).filePosition) := by
  unfold dirRead at h
  simp only at h
  by_cases hend : img.dirNum ≤ (fa.openedFiles fd).filePosition
  · rw [if_pos hend] at h
    obtain ⟨rfl, rfl, -⟩ := ReadCall.done.inj h
    refine iff_of_true ⟨?_, ?_⟩ fun _ => hend
    · exact le_max_right _ _
    · exact le_max_right _ _
  · rw [if_neg hend] at h
    obtain ⟨rfl, rfl, -⟩ := ReadCall.done.inj h
    unfold UserWrite.Inside
    simp only [(field_strncpy _ _).1]
    by_cases hneg : n.toInt < 0
    · have hsize : ¬n.toInt > (fileNameLength : ℤ) := by
        push_cast
        omega
      have hpos := toNat_pos_of_neg hneg
      rw [if_neg hsize, toNat_toInt]
      constructor
      · rintro ⟨-, hlen⟩ -
        omega
      · intro hall
        exact absurd (hall hneg) hend
    · refine iff_of_true ?_ fun hneg' => absurd hneg' hneg
      push_cast
      split_ifs <;> omega

theorem fileRead_done (nbytes : ℤ) :
    ∃ ret bytes fa', fa.fileRead img fd nbytes = .done ret bytes fa' := by
  unfold fileRead
  simp only
  split
  · exact ⟨_, _, _, rfl⟩
  · split_ifs <;> exact ⟨_, _, _, rfl⟩

theorem dirRead_done (nbytes : ℤ) :
    ∃ ret bytes fa', fa.dirRead img fd nbytes = .done ret bytes fa' := by
  unfold dirRead
  simp only
  split_ifs <;> exact ⟨_, _, _, rfl⟩

end FileArray

/-! ### The terminal -/

/-- The scan loop stops in front of the limit. -/
theorem Terminal.scan_le (t : Terminal) (n : ℤ) : ((t.scan n).1 : ℤ) ≤ max n 0 := by
  have hspec := t.scan_spec n
  rcases Nat.eq_zero_or_pos (t.scan n).1 with hzero | hpos
  · omega
  · have hlast := (hspec.plain ((t.scan n).1 - 1) (Nat.zero_le _) (by omega)).2
    omega

theorem Terminal.limitBytes_le (n : ℤ) : limitBytes n ≤ n := by
  rw [limitBytes]
  split_ifs with h
  · exact h.le
  · exact le_rfl

/-- Characters up to a limit are inside the buffer. -/
theorem Terminal.copyOut_inside (t : Terminal) {i : ℕ} {n : ℤ}
    (h : (i : ℤ) ≤ max (limitBytes n) 0) : (t.copyOut i).Inside n := by
  have hle := limitBytes_le n
  have hlen : (t.copyOut i).bytes.length = i := by simp [copyOut]
  constructor
  · show (i : ℤ) ≤ max n 0
    omega
  · rw [hlen]
    omega

/-- A terminal read is inside the buffer, whatever happens to the terminal in its sleep. -/
theorem Kernel.terminalReadWrite_inside (k : Kernel) (later : Terminal) (n : ℤ) :
    (k.terminalReadWrite later n).Inside n := by
  unfold terminalReadWrite Terminal.readBegin
  simp only
  split
  · rename_i term i hread
    split at hread
    · obtain ⟨-, hi⟩ := Prod.mk.inj hread
      obtain rfl := Option.some.inj hi
      exact Terminal.copyOut_inside _ (Terminal.scan_le _ _)
    · cases (Prod.mk.inj hread).2
  · exact Terminal.copyOut_inside _ (Terminal.scan_le _ _)

/-! ## The calls stay inside -/

/-- A system call with a pointer to user memory. -/
inductive UserCall where
  | read (fd : ℤ) (bufNull : Bool) (nbytes : BitVec 32)
  | getargs (nbytes : BitVec 32)
  | vidmap (screenStart : BitVec 32)

namespace UserCall

/-- The call writes only where it was told to: a read returns at most `nbytes`, a read and
`getargs` store inside their buffer, and `vidmap` stores inside 128-132MB. -/
def Inside (k : Kernel) (img : FsImage) (later : Terminal) : UserCall → Prop
  | .read fd bufNull nbytes => (k.readWrite img later fd bufNull nbytes.toInt).Inside nbytes.toInt
  | .getargs nbytes => ((k.getargsWrite nbytes.toInt).bytes.length : ℤ) ≤ max nbytes.toInt 0
  | .vidmap screenStart =>
    ∀ i < (k.vidmapWrite screenStart).bytes.length,
      0x08000000 ≤ screenStart.toNat + i ∧ screenStart.toNat + i < 0x08400000

/-- What the caller has to keep to: a negative number of bytes only where nothing is to be
copied, and the pointer of `vidmap` not in the last three bytes of the program's memory. -/
def Safe (k : Kernel) (img : FsImage) : UserCall → Prop
  | .read fd bufNull nbytes =>
    nbytes.toInt < 0 → bufNull = false → ∀ i, k.runningTask.fileArray.usable fd = some i →
      let e := k.runningTask.fileArray.openedFiles i
      (e.fileOpTable = .file → ¬img.HasByte e.inode e.filePosition) ∧
        (e.fileOpTable = .dir → img.dirNum ≤ e.filePosition)
  | .getargs nbytes =>
    nbytes.toInt < 0 → ∀ args, k.runningTask.args = some args → nbytes.toNat ≤ strlen args
  | .vidmap screenStart =>
    k.runningTask.terminal ≠ none → screenStart.toNat ∉ Finset.Ioo 0x083FFFFC 0x08400000

variable (k : Kernel) (img : FsImage) (later : Terminal)

/-- The condition on a read through the descriptor `i`. -/
theorem safe_read_iff {fd : ℤ} {bufNull : Bool} {nbytes : BitVec 32} {i : Fin 8}
    (husable : k.runningTask.fileArray.usable fd = some i)
    (hbuf : nbytes.toInt < 0 → bufNull = false) :
    (UserCall.read fd bufNull nbytes).Safe k img ↔ (nbytes.toInt < 0 →
      let e := k.runningTask.fileArray.openedFiles i
      (e.fileOpTable = .file → ¬img.HasByte e.inode e.filePosition) ∧
        (e.fileOpTable = .dir → img.dirNum ≤ e.filePosition)) := by
  constructor
  · intro hsafe hneg
    exact hsafe hneg (hbuf hneg) i husable
  · intro hsafe hneg _ j hj
    obtain rfl := Option.some.inj (husable.symm.trans hj)
    exact hsafe hneg

theorem read_inside_iff (fd : ℤ) (bufNull : Bool) (nbytes : BitVec 32) :
    (UserCall.read fd bufNull nbytes).Inside k img later ↔
      (UserCall.read fd bufNull nbytes).Safe k img := by
  by_cases hnull : nbytes.toInt ≠ 0 ∧ bufNull = true
  · have hread : k.readWrite img later fd bufNull nbytes.toInt = { ret := -1, bytes := [] } := by
      rw [Kernel.readWrite, FileArray.systemRead, if_pos hnull]
    refine iff_of_true ?_ fun _ hbuf => ?_
    · show (k.readWrite img later fd bufNull nbytes.toInt).Inside nbytes.toInt
      rw [hread]
      exact UserWrite.inside_fail _
    · rw [hnull.2] at hbuf
      cases hbuf
  generalize husable : k.runningTask.fileArray.usable fd = slot
  rcases slot with _ | i
  · have hread : k.readWrite img later fd bufNull nbytes.toInt = { ret := -1, bytes := [] } := by
      rw [Kernel.readWrite, FileArray.systemRead, if_neg hnull, husable]
    refine iff_of_true ?_ fun _ _ i hi => ?_
    · show (k.readWrite img later fd bufNull nbytes.toInt).Inside nbytes.toInt
      rw [hread]
      exact UserWrite.inside_fail _
    · rw [husable] at hi
      cases hi
  have hbuf : nbytes.toInt < 0 → bufNull = false := by
    intro hneg
    by_contra hb
    exact hnull ⟨by omega, by simpa using hb⟩
  rw [safe_read_iff k img husable hbuf]
  show (k.readWrite img later fd bufNull nbytes.toInt).Inside nbytes.toInt ↔ _
  rw [Kernel.readWrite, FileArray.systemRead, if_neg hnull, husable]
  -- every operation table has its own read
  generalize htable : (k.runningTask.fileArray.openedFiles i).fileOpTable = table
  rcases table with _ | _ | _ | _
  · by_cases hfd : fd ≠ 0
    · simp only [htable, if_pos hfd, reduceCtorEq, false_implies, and_self, implies_true, iff_true]
      exact UserWrite.inside_fail _
    · simp only [htable, if_neg hfd, reduceCtorEq, false_implies, and_self, implies_true, iff_true]
      exact k.terminalReadWrite_inside later _
  · simp only [htable, reduceCtorEq, false_implies, and_self, implies_true, iff_true]
    refine ⟨?_, le_max_right _ _⟩
    show (if _ then (-1 : ℤ) else 0) ≤ _
    split_ifs <;> omega
  · simp only [htable, reduceCtorEq, false_implies, true_and, forall_const]
    obtain ⟨ret, bytes, fa', hread⟩ := k.runningTask.fileArray.dirRead_done img i nbytes.toInt
    rw [hread]
    exact k.runningTask.fileArray.dirRead_inside img i nbytes hread
  · simp only [htable, reduceCtorEq, false_implies, and_true, forall_const]
    obtain ⟨ret, bytes, fa', hread⟩ := k.runningTask.fileArray.fileRead_done img i nbytes.toInt
    rw [hread]
    exact k.runningTask.fileArray.fileRead_inside img i nbytes hread

theorem getargs_inside_iff (nbytes : BitVec 32) :
    (UserCall.getargs nbytes).Inside k img later ↔ (UserCall.getargs nbytes).Safe k img := by
  show ((k.getargsWrite nbytes.toInt).bytes.length : ℤ) ≤ max nbytes.toInt 0 ↔ _
  unfold Safe Kernel.getargsWrite
  generalize k.runningTask.args = args
  have hunsigned : nbytes.toInt % 2 ^ 32 = nbytes.toNat := by
    have htoNat := toNat_toInt nbytes
    omega
  rcases args with _ | args
  · exact iff_of_true (le_max_right _ _) fun _ args hargs => by cases hargs
  simp only [hunsigned, Int.toNat_natCast, Option.some.injEq, forall_eq']
  by_cases hlen : (strlen args : ℤ) ≥ nbytes.toNat
  · rw [if_pos hlen]
    exact iff_of_true (le_max_right _ _) fun _ => by omega
  · rw [if_neg hlen, (field_strncpy _ _).1]
    by_cases hneg : nbytes.toInt < 0
    · have hpos := toNat_pos_of_neg hneg
      constructor
      · intro hin
        omega
      · intro hsafe
        exact absurd (hsafe hneg) (by omega)
    · refine iff_of_true ?_ fun hneg' => absurd hneg' hneg
      rw [toInt_eq_toNat (by omega)]
      exact le_max_left _ _

theorem vidmap_inside_iff (screenStart : BitVec 32) :
    (UserCall.vidmap screenStart).Inside k img later ↔
      (UserCall.vidmap screenStart).Safe k img := by
  show (∀ i < (k.vidmapWrite screenStart).bytes.length, _) ↔ _
  unfold Safe Kernel.vidmapWrite
  simp only [Finset.mem_Ioo, not_and, not_lt]
  have hsigned : screenStart.toInt = screenStart.toNat ∨ screenStart.toInt < 0 := by
    rw [BitVec.toInt_eq_toNat_cond]
    have hlt := screenStart.isLt
    split_ifs <;> omega
  have hpos : screenStart.toNat < 2 ^ 31 → screenStart.toInt = screenStart.toNat := by
    intro hlt
    rw [BitVec.toInt_eq_toNat_cond, if_pos (by omega)]
  by_cases hrange : screenStart.toInt < Kernel.taskImgStart ∨ screenStart.toInt ≥ Kernel.taskImgEnd
  · rw [if_pos hrange]
    refine iff_of_true (fun i hi => absurd hi (Nat.not_lt_zero i)) fun _ hlow => ?_
    simp only [Kernel.taskImgStart, Kernel.taskImgEnd] at hrange
    by_contra hhigh
    have := hpos (by omega)
    omega
  · rw [if_neg hrange]
    simp only [Kernel.taskImgStart, Kernel.taskImgEnd] at hrange
    rcases k.runningTask.terminal with _ | t
    · exact iff_of_true (fun i hi => absurd hi (Nat.not_lt_zero i)) fun hnone => absurd rfl hnone
    · simp only [List.length_map, List.length_range, ne_eq, reduceCtorEq, not_false_eq_true,
        forall_const]
      constructor
      · intro hall hlow
        have hlast := hall 3 (by omega)
        omega
      · intro hsafe i hi
        by_contra hout
        have := hsafe (by omega)
        omega

/-- **System calls write only where they were told to** exactly under the conditions above. -/
theorem writes_inside_iff (call : UserCall) : call.Inside k img later ↔ call.Safe k img := by
  cases call with
  | read fd bufNull nbytes => exact read_inside_iff k img later fd bufNull nbytes
  | getargs nbytes => exact getargs_inside_iff k img later nbytes
  | vidmap screenStart => exact vidmap_inside_iff k img later screenStart

/-- The shell opens `cat`, and gets ready to read it. -/
def openCat : List Event :=
  firstTick ++ openShell ++ [.openFile catCommand, .resume, .resume]

/-- **A negative number of bytes and a pointer near the end**: a read of -1 bytes copies the
whole file, and `vidmap` stores one byte behind the memory of the program. -/
theorem writes_outside : ∃ k, run (fun k l => k.step programs l) Kernel.start (traceOf openCat)
    = .ok k ∧ k.runningTask.kstack = [] ∧
    (∀ later, ¬(UserCall.read 2 false (-1)).Inside k programs later) ∧
    ∀ later, ¬(UserCall.vidmap 0x083FFFFD).Inside k programs later := by
  have h : (run (fun k l => k.step programs l) Kernel.start (traceOf openCat)).toOption.map
      (fun k => (k.runningTask.kstack, k.runningTask.fileArray.usable 2,
        k.runningTask.fileArray.openedFiles 2, k.runningTask.terminal)) =
      some ([], some 2, ⟨.file, 0, 0, true⟩, some 0) := by decide +kernel
  obtain ⟨k, hk, hobs⟩ := toOption_map_eq_some.mp h
  simp only [Prod.mk.injEq] at hobs
  obtain ⟨hstack, husable, hentry, hterm⟩ := hobs
  refine ⟨k, hk, hstack, fun later hin => ?_, fun later hin => ?_⟩
  · have hsafe := (read_inside_iff k programs later 2 false (-1)).mp hin (by decide) rfl 2 husable
    rw [hentry] at hsafe
    exact hsafe.1 rfl ⟨by decide, by decide, by decide⟩
  · have hsafe := (vidmap_inside_iff k programs later 0x083FFFFD).mp hin (by rw [hterm]; decide)
    exact hsafe (by decide)

end UserCall

end AuroraOS
