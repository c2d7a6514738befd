/-
# The slice that `read_data` stores

`file_system.c`, `read_data` with the memory that holds the buffer: the loop stores one
byte of the file after the other and leaves the rest of the memory alone, and two reads
in a row store what one read of both lengths stores.

The counters of the source are `uint32_t`; none of them passes the length of the file or
the length asked for, so they are numbers here.  The buffer does not lie in the module.
-/
import AuroraOS.FileRead
import AuroraOS.Memory

namespace AuroraOS

open Memory

namespace FsImage

variable (img : FsImage)

/-! ## The function on memory -/

/-- The loop of `read_data`, with `n` bytes left to read: the number of bytes read and the
memory at the end. -/
def readLoopInto (inode : Inode) (buf : BitVec 32) :
    ℕ → ℕ → ℕ → ℕ → ℕ → ℕ → Mem → ℕ × Mem
  | 0, bytesRead, _, _, _, _, m => (bytesRead, m)
  | n + 1, bytesRead, offset, index, num, blockOffset, m =>
    if inode.lengthInBytes ≤ offset then (bytesRead, m)
    else
      let m := Function.update m (buf + BitVec.ofNat 32 bytesRead) (img.dataBlocks num blockOffset)
      if fileBlockSize ≤ blockOffset + 1 then
        let num := inode.dataBlockNum (index + 1)
        if img.dataBlockNum ≤ num then (bytesRead + 1, m)
        else
          readLoopInto inode buf n (bytesRead + 1) (offset + 1) (index + 1) num
            (blockOffset + 1 - fileBlockSize) m
      else readLoopInto inode buf n (bytesRead + 1) (offset + 1) index num (blockOffset + 1) m

/-- `read_data`: the value returned, an `int32_t`, and the memory. -/
def readDataInto (inode offset : ℕ) (buf : BitVec 32) (length : ℕ) (m : Mem) : ℤ × Mem :=
  if img.inodeNum ≤ inode then (-1, m)
  else
    let index := offset / fileBlockSize
    let num := (img.inodes inode).dataBlockNum index
    let blockOffset := offset - index * fileBlockSize
    if img.dataBlockNum ≤ num then (-1, m)
    else
      let (bytesRead, m) := img.readLoopInto (img.inodes inode) buf length 0 offset index num
        blockOffset m
      ((BitVec.ofNat 32 bytesRead).toInt, m)

/-- The loop stores the bytes that it reads, from the place it has reached on. -/
theorem readLoopInto_eq (inode : Inode) (buf : BitVec 32) :
    ∀ n bytesRead offset index num blockOffset m,
      img.readLoopInto inode buf n bytesRead offset index num blockOffset m =
        (bytesRead + (img.readLoop inode n offset index num blockOffset).length,
          storeBytes (img.readLoop inode n offset index num blockOffset)
            (buf + BitVec.ofNat 32 bytesRead) m) := by
  intro n
  induction n with
  | zero =>
    intro bytesRead offset index num blockOffset m
    rfl
  | succ n ih =>
    intro bytesRead offset index num blockOffset m
    have haddr : buf + BitVec.ofNat 32 (bytesRead + 1) =
      buf + BitVec.ofNat 32 bytesRead + 1#32 := by
      rw [BitVec.ofNat_add, BitVec.add_assoc]
    have hcons : ∀ (c : UInt8) (cs : List UInt8),
        (bytesRead + 1 + cs.length, storeBytes cs (buf + BitVec.ofNat 32 (bytesRead + 1))
          (Function.update m (buf + BitVec.ofNat 32 bytesRead) c)) =
        (bytesRead + (c :: cs).length,
          storeBytes (c :: cs) (buf + BitVec.ofNat 32 bytesRead) m) := by
      intro c cs
      rw [haddr, List.length_cons, Nat.add_assoc, Nat.add_comm 1]
      rfl
    rw [readLoopInto, readLoop]
    by_cases hlen : inode.lengthInBytes ≤ offset
    · rw [if_pos hlen, if_pos hlen]
      rfl
    · rw [if_neg hlen, if_neg hlen]
      by_cases hblock : fileBlockSize ≤ blockOffset + 1
      · simp only [if_pos hblock]
        by_cases hnum : img.dataBlockNum ≤ inode.dataBlockNum (index + 1)
        · rw [if_pos hnum, if_pos hnum]
          exact hcons _ []
        · rw [if_neg hnum, if_neg hnum, ih]
          exact hcons _ _
      · simp only [if_neg hblock, ih]
        exact hcons _ _

/-- `read_data` stores the bytes of `readData` in the buffer and returns how many there
are, and stores nothing when it returns -1 at once. -/
theorem readDataInto_eq (inode offset : ℕ) (buf : BitVec 32) (length : ℕ) (m : Mem) :
    img.readDataInto inode offset buf length m =
      ((img.readData inode offset length).elim (-1) fun bytes =>
          (BitVec.ofNat 32 bytes.length).toInt,
        storeBytes ((img.readData inode offset length).getD []) buf m) := by
  unfold readDataInto readData
  by_cases hin : img.inodeNum ≤ inode
  · simp only [if_pos hin]
    rfl
  · simp only [if_neg hin]
    by_cases hnum :
        img.dataBlockNum ≤ (img.inodes inode).dataBlockNum (offset / fileBlockSize)
    · simp only [if_pos hnum]
      rfl
    · simp only [if_neg hnum, readLoopInto_eq, Nat.zero_add, BitVec.add_zero]
      rfl

/-! ## The bytes of the file -/

/-- What a reader of the files relies on: their lengths fit the block tables, and the
blocks of every file are blocks of the image. -/
structure FilesWellFormed : Prop where
  length : ∀ n < img.inodeNum, (img.inodes n).lengthInBytes ≤ inodeBlocks * fileBlockSize
  block : ∀ n < img.inodeNum, ∀ b, b * fileBlockSize < (img.inodes n).lengthInBytes →
    (img.inodes n).dataBlockNum b < img.dataBlockNum

variable {img}

theorem WellFormed.filesWellFormed (h : img.WellFormed) : img.FilesWellFormed where
  length := h.length
  block := h.block

/-- The directory plays no part in reading a file: without it the image is well formed. -/
theorem FilesWellFormed.wellFormed (h : img.FilesWellFormed) :
    { img with dirNum := 0 }.WellFormed where
  dirNum := Nat.zero_le _
  regular := fun i hi => absurd hi (Nat.not_lt_zero i)
  length := h.length
  block := h.block

theorem readLoop_dirNum (n : ℕ) (inode : Inode) : ∀ k offset index num blockOffset,
    { img with dirNum := n }.readLoop inode k offset index num blockOffset =
      img.readLoop inode k offset index num blockOffset := by
  intro k
  induction k with
  | zero =>
    intro offset index num blockOffset
    rfl
  | succ k ih =>
    intro offset index num blockOffset
    simp only [readLoop, ih]

/-- `read_data` inside a file. -/
theorem readData_inside_file (h : img.FilesWellFormed) {inode offset : ℕ}
    (hin : inode < img.inodeNum)
    (hoff : offset < (img.inodes inode).lengthInBytes) (length : ℕ) :
    img.readData inode offset length = some (((img.contents inode).drop offset).take length) := by
  have hblock := h.block inode hin (offset / fileBlockSize)
    (Nat.lt_of_le_of_lt (Nat.div_mul_le_self _ _) hoff)
  have hread := readData_eq h.wellFormed hin hblock length
  simp only [readData, readLoop_dirNum] at hread ⊢
  exact hread

/-- At the end of a file nothing is read: the call stores nothing and returns 0 or -1. -/
theorem readData_at_end {inode offset : ℕ} (hoff : (img.inodes inode).lengthInBytes ≤ offset)
    (length : ℕ) : (img.readData inode offset length).getD [] = [] := by
  unfold readData
  by_cases hin : img.inodeNum ≤ inode
  · rw [if_pos hin]
    rfl
  · rw [if_neg hin]
    by_cases hnum :
        img.dataBlockNum ≤ (img.inodes inode).dataBlockNum (offset / fileBlockSize)
    · simp only [if_pos hnum]
      rfl
    · simp only [if_neg hnum]
      cases length with
      | zero => rfl
      | succ length => exact if_pos hoff

/-! ## The slice -/

/-- The number of bytes that a read of `length` bytes at an offset of a file can deliver. -/
def available (img : FsImage) (inode offset length : ℕ) : ℕ :=
  min length ((img.inodes inode).lengthInBytes - offset)

/-- What a read at an offset has done: returned how many bytes it could deliver, stored
these bytes of the file from `buf` on, and changed no other byte of the memory. -/
structure Slice (img : FsImage) (inode offset : ℕ) (buf : BitVec 32) (length : ℕ) (m : Mem)
    (r : ℤ × Mem) : Prop where
  ret : r.1 = img.available inode offset length
  stored : ∀ j < img.available inode offset length,
    r.2 (buf + BitVec.ofNat 32 j) = img.byteAt inode (offset + j)
  rest : ∀ a, img.available inode offset length ≤ (a - buf).toNat → r.2 a = m a

/-- Two reads in a row, the second behind what the first has delivered.  A second read that
starts at the end of the file may fail; it counts as one of no bytes. -/
def readTwice (img : FsImage) (inode offset : ℕ) (buf : BitVec 32) (a b : ℕ) (m : Mem) : ℤ × Mem :=
  let first := img.readDataInto inode offset buf a m
  let second := img.readDataInto inode (offset + first.1.toNat) (buf + BitVec.ofInt 32 first.1) b
    first.2
  (first.1 + max second.1 0, second.2)

theorem length_slice (inode offset length : ℕ) :
    (((img.contents inode).drop offset).take length).length =
      img.available inode offset length := by
  rw [List.length_take, List.length_drop, length_contents, available]

/-- The number of bytes delivered is an `int32_t` that is not negative. -/
theorem FilesWellFormed.available_lt (h : img.FilesWellFormed) {inode : ℕ}
    (hin : inode < img.inodeNum)
    (offset length : ℕ) : img.available inode offset length < 2 ^ 31 := by
  have hlen := h.length inode hin
  simp only [inodeBlocks, fileBlockSize] at hlen
  have := Nat.min_le_right length ((img.inodes inode).lengthInBytes - offset)
  rw [available]
  omega

theorem toInt_ofNat_lt {n : ℕ} (h : n < 2 ^ 31) : (BitVec.ofNat 32 n).toInt = n := by
  rw [BitVec.toInt_ofNat']
  exact Int.bmod_eq_of_le (by omega) (by omega)

/-- A read inside a file, as a list of bytes that is stored. -/
theorem readDataInto_inside (h : img.FilesWellFormed) {inode offset : ℕ}
    (hin : inode < img.inodeNum)
    (hoff : offset < (img.inodes inode).lengthInBytes) (buf : BitVec 32) (length : ℕ) (m : Mem) :
    img.readDataInto inode offset buf length m =
      ((img.available inode offset length : ℤ),
        storeBytes (((img.contents inode).drop offset).take length) buf m) := by
  rw [readDataInto_eq, readData_inside_file h hin hoff]
  show ((BitVec.ofNat 32 (((img.contents inode).drop offset).take length).length).toInt, _) = _
  rw [length_slice, toInt_ofNat_lt (h.available_lt hin offset length)]
  rfl

theorem slice_readDataInto (h : img.FilesWellFormed) {inode offset : ℕ} (hin : inode < img.inodeNum)
    (hoff : offset < (img.inodes inode).lengthInBytes) (buf : BitVec 32) (length : ℕ) (m : Mem) :
    Slice img inode offset buf length m (img.readDataInto inode offset buf length m) := by
  have hlt := h.available_lt hin offset length
  rw [readDataInto_inside h hin hoff]
  refine ⟨rfl, ?_, ?_⟩
  · intro j hj
    show storeBytes _ buf m _ = _
    have hj' : j < (((img.contents inode).drop offset).take length).length := by
      rw [length_slice]
      exact hj
    rw [storeBytes_at _ buf m hj' (by rw [length_slice]; omega), List.getElem_take,
      List.getElem_drop]
    simp only [contents, List.getElem_map, List.getElem_range]
  · intro a ha
    apply storeBytes_of_le
    rw [length_slice]
    exact ha

theorem readTwice_eq (h : img.FilesWellFormed) {inode offset : ℕ} (hin : inode < img.inodeNum)
    (hoff : offset < (img.inodes inode).lengthInBytes) (buf : BitVec 32) (a b : ℕ) (m : Mem) :
    img.readTwice inode offset buf a b m = img.readDataInto inode offset buf (a + b) m := by
  have hbuf : ∀ n : ℕ, BitVec.ofInt 32 (n : ℤ) = BitVec.ofNat 32 n := BitVec.ofInt_natCast 32
  simp only [readTwice, readDataInto_inside h hin hoff, Int.toNat_natCast, hbuf]
  by_cases hend : (img.inodes inode).lengthInBytes ≤ offset + img.available inode offset a
  · -- the first read has reached the end of the file
    have hall : (img.inodes inode).lengthInBytes - offset ≤ a := by
      rw [available] at hend
      omega
    have htake : ∀ n, a ≤ n → ((img.contents inode).drop offset).take n =
        ((img.contents inode).drop offset) := by
      intro n hn
      apply List.take_of_length_le
      rw [List.length_drop, length_contents]
      omega
    have hnone := readData_at_end hend b
    have hret : max (((img.readData inode (offset + img.available inode offset a) b).elim (-1)
        fun bytes => (BitVec.ofNat 32 bytes.length).toInt)) 0 = 0 := by
      cases hr : img.readData inode (offset + img.available inode offset a) b with
      | none => rfl
      | some bytes =>
        rw [hr] at hnone
        obtain rfl : bytes = [] := hnone
        rfl
    have hsame : img.available inode offset (a + b) = img.available inode offset a := by
      simp only [available]
      omega
    rw [readDataInto_eq, hnone]
    simp only [hret, hsame, htake a (Nat.le_refl a), htake (a + b) (Nat.le_add_right a b), add_zero]
    rfl
  · have hlt := Nat.not_le.mp hend
    have ha : img.available inode offset a = a := by
      rw [available] at hlt ⊢
      omega
    rw [ha] at hlt
    have hsum : img.available inode offset (a + b) = a + img.available inode (offset + a) b := by
      simp only [available]
      omega
    rw [ha, readDataInto_inside h hin hlt, List.take_add, storeBytes_append, length_slice, ha,
      List.drop_drop, hsum]
    push_cast
    rw [max_eq_left (Int.natCast_nonneg _)]

/-- **`read_data` returns the right slice**, and reading `length` bytes and then `b` more from
where the first read ended is reading `length + b` bytes at once. -/
theorem readData_slice (h : img.FilesWellFormed) {inode offset : ℕ} (hin : inode < img.inodeNum)
    (hoff : offset < (img.inodes inode).lengthInBytes) (buf : BitVec 32) (length : ℕ) (m : Mem) :
    Slice img inode offset buf length m (img.readDataInto inode offset buf length m) ∧
      ∀ b, img.readTwice inode offset buf length b m =
        img.readDataInto inode offset buf (length + b) m :=
  ⟨slice_readDataInto h hin hoff buf length m, fun b => readTwice_eq h hin hoff buf length b m⟩

/-- A file of 5000 bytes, read across the end of its first block and past its end. -/
theorem readData_slice_oneFile :
    Slice (oneFile 5000) 0 4090 0x8000000 2000 (fun _ => 0)
        ((oneFile 5000).readDataInto 0 4090 0x8000000 2000 fun _ => 0) ∧
      ∀ b, (oneFile 5000).readTwice 0 4090 0x8000000 2000 b (fun _ => 0) =
        (oneFile 5000).readDataInto 0 4090 0x8000000 (2000 + b) fun _ => 0 :=
  readData_slice (oneFile_wellFormed (by decide)).filesWellFormed Nat.one_pos
    (show 4090 < 5000 by decide) 0x8000000 2000 fun _ => 0

end FsImage

end AuroraOS
