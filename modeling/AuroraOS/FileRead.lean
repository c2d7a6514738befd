/-
# Sequential reads of regular files

The descriptors of one task under any interleaving of open, read and close, on a
well-formed image.  A file is the list of its bytes; the machine below remembers what
has been delivered through each descriptor since it was opened, and the invariant is
that this is the part of the file in front of the position.

`read_data` looks up the block of the offset before it looks at the length of the file,
so a read at the end of a file whose last block is full depends on a word of the
block table that belongs to no block.
-/
import AuroraOS.FileSystem
import AuroraOS.Machine

namespace AuroraOS

open Machine

/-! ## Files as lists of bytes -/

namespace FsImage

variable (img : FsImage)

/-- The byte of a file at an offset. -/
def byteAt (inode offset : ℕ) : UInt8 :=
  img.dataBlocks ((img.inodes inode).dataBlockNum (offset / fileBlockSize)) (offset % fileBlockSize)

/-- The contents of a file. -/
def contents (inode : ℕ) : List UInt8 :=
  (List.range (img.inodes inode).lengthInBytes).map (img.byteAt inode)

/-- A well-formed image.  Nothing is said about the block table of an inode behind
the blocks of its file. -/
structure WellFormed : Prop where
  dirNum : img.dirNum ≤ 63
  regular : ∀ i < img.dirNum, (img.dirEntries i).fileType = 2 →
    (img.dirEntries i).inodeNum < img.inodeNum
  length : ∀ n < img.inodeNum, (img.inodes n).lengthInBytes ≤ inodeBlocks * fileBlockSize
  block : ∀ n < img.inodeNum, ∀ b, b * fileBlockSize < (img.inodes n).lengthInBytes →
    (img.inodes n).dataBlockNum b < img.dataBlockNum

@[simp] theorem length_contents (inode : ℕ) :
    (img.contents inode).length = (img.inodes inode).lengthInBytes := by
  simp [contents]

theorem drop_contents {inode offset : ℕ} (h : offset < (img.inodes inode).lengthInBytes) :
    (img.contents inode).drop offset =
      img.byteAt inode offset :: (img.contents inode).drop (offset + 1) := by
  rw [List.drop_eq_getElem_cons (by simpa using h)]
  simp [contents]

variable {img}

/-- **The loop of `read_data`** delivers the file from the offset on, as far as the
length allows: the block and the offset in it follow the offset in the file. -/
theorem readLoop_eq (h : img.WellFormed) {inode : ℕ} (hin : inode < img.inodeNum) :
    ∀ n offset, img.readLoop (img.inodes inode) n offset (offset / fileBlockSize)
        ((img.inodes inode).dataBlockNum (offset / fileBlockSize)) (offset % fileBlockSize)
      = ((img.contents inode).drop offset).take n
  | 0, offset => by rw [readLoop, List.take_zero]
  | n + 1, offset => by
    rw [readLoop]
    by_cases hlen : (img.inodes inode).lengthInBytes ≤ offset
    · rw [if_pos hlen, List.drop_eq_nil_of_le (by simpa using hlen), List.take_nil]
    · rw [if_neg hlen, drop_contents img (Nat.not_le.mp hlen), List.take_succ_cons,
        ← readLoop_eq h hin n (offset + 1)]
      by_cases hblock : fileBlockSize ≤ offset % fileBlockSize + 1
      · have hdiv : (offset + 1) / fileBlockSize = offset / fileBlockSize + 1 := by
          simp only [fileBlockSize] at *
          omega
        have hmod : (offset + 1) % fileBlockSize = offset % fileBlockSize + 1 - fileBlockSize := by
          simp only [fileBlockSize] at *
          omega
        simp only [if_pos hblock, hdiv, hmod]
        by_cases hnum :
            img.dataBlockNum ≤ (img.inodes inode).dataBlockNum (offset / fileBlockSize + 1)
        · -- the next block is not one of the file, so this was its last byte
          have hend : (img.inodes inode).lengthInBytes ≤ offset + 1 := by
            by_contra hlt
            refine absurd (h.block inode hin (offset / fileBlockSize + 1) ?_) (Nat.not_lt.mpr hnum)
            simp only [fileBlockSize] at *
            omega
          rw [if_pos hnum]
          cases n with
          | zero => rfl
          | succ n => rw [readLoop, if_pos hend]; rfl
        · rw [if_neg hnum]
          rfl
      · have hdiv : (offset + 1) / fileBlockSize = offset / fileBlockSize := by
          simp only [fileBlockSize] at *
          omega
        have hmod : (offset + 1) % fileBlockSize = offset % fileBlockSize + 1 := by
          simp only [fileBlockSize] at *
          omega
        simp only [if_neg hblock, hdiv, hmod]
        rfl

/-- `read_data` on a valid block. -/
theorem readData_eq (h : img.WellFormed) {inode offset : ℕ} (hin : inode < img.inodeNum)
    (hnum : (img.inodes inode).dataBlockNum (offset / fileBlockSize) < img.dataBlockNum) (n : ℕ) :
    img.readData inode offset n = some (((img.contents inode).drop offset).take n) := by
  have hmod : offset - offset / fileBlockSize * fileBlockSize = offset % fileBlockSize := by
    simp only [fileBlockSize]
    omega
  simp only [readData, if_neg (Nat.not_le.mpr hin), if_neg (Nat.not_le.mpr hnum), hmod,
    readLoop_eq h hin]

/-- The block of an offset inside the file, or at the end of a file whose last block
is not full, is a block of the file. -/
theorem block_lt (h : img.WellFormed) {inode offset : ℕ} (hin : inode < img.inodeNum)
    (hle : offset ≤ (img.inodes inode).lengthInBytes)
    (hend : offset = (img.inodes inode).lengthInBytes → offset % fileBlockSize ≠ 0) :
    (img.inodes inode).dataBlockNum (offset / fileBlockSize) < img.dataBlockNum := by
  refine h.block inode hin _ ?_
  have hmul : offset / fileBlockSize * fileBlockSize ≤ offset := Nat.div_mul_le_self _ _
  by_cases he : offset = (img.inodes inode).lengthInBytes
  · have := hend he
    simp only [fileBlockSize] at *
    omega
  · omega

theorem readDentryByName_mem {fname : List UInt8} {d : Dentry}
    (hd : img.readDentryByName fname = some d) : ∃ i < img.dirNum, img.dirEntries i = d := by
  unfold readDentryByName at hd
  split at hd
  · cases hd
  · obtain ⟨i, hi, rfl⟩ := Option.map_eq_some_iff.mp hd
    exact ⟨i, List.mem_range.mp (List.mem_of_find?_eq_some hi), rfl⟩

end FsImage

/-! ## Descriptors -/

namespace FileArray

variable {fa : FileArray}

/-- The descriptors in use. -/
def used (fa : FileArray) : Finset (Fin 8) := Finset.univ.filter fun fd => (fa.openedFiles fd).inUse

/-- Descriptors 0 and 1 stay with the terminal, and `current_open_file_num` is right. -/
structure Counted (fa : FileArray) : Prop where
  stdin : (fa.openedFiles 0).inUse ∧ (fa.openedFiles 0).fileOpTable = .terminal
  stdout : (fa.openedFiles 1).inUse ∧ (fa.openedFiles 1).fileOpTable = .terminal
  count : fa.currentOpenFileNum = fa.used.card

theorem mem_used {fd : Fin 8} : fd ∈ fa.used ↔ (fa.openedFiles fd).inUse = true := by
  simp [used]

theorem set_of_ne {fd i : Fin 8} (e : FileArrayEntry) (h : i ≠ fd) :
    (fa.set fd e).openedFiles i = fa.openedFiles i := Function.update_of_ne h _ _

@[simp] theorem set_self {fd : Fin 8} (e : FileArrayEntry) : (fa.set fd e).openedFiles fd = e :=
  Function.update_self _ _ _

theorem used_set_true {fd : Fin 8} {e : FileArrayEntry} (he : e.inUse = true) :
    (fa.set fd e).used = insert fd fa.used := by
  ext i
  rw [mem_used, Finset.mem_insert, mem_used]
  by_cases hi : i = fd
  · subst hi; simp [he]
  · simp [set_of_ne e hi, hi]

theorem used_set_false {fd : Fin 8} {e : FileArrayEntry} (he : e.inUse = false) :
    (fa.set fd e).used = fa.used.erase fd := by
  ext i
  rw [mem_used, Finset.mem_erase, mem_used]
  by_cases hi : i = fd
  · subst hi; simp [he]
  · simp [set_of_ne e hi, hi]

/-- `get_free_fd` finds a descriptor from 2 on that is not in use, unless all are. -/
theorem getFreeFd_spec (h : fa.Counted) (hlt : fa.currentOpenFileNum < maxOpenFile) :
    ∃ fd, fa.getFreeFd = some fd ∧ (fa.openedFiles fd).inUse = false ∧ fd ≠ 0 ∧ fd ≠ 1 := by
  cases hf : fa.getFreeFd with
  | some fd =>
    have hm := List.mem_of_find?_eq_some hf
    have hu : (fa.openedFiles fd).inUse = false := by simpa using List.find?_some hf
    exact ⟨fd, rfl, hu, by rintro rfl; exact absurd hm (by decide),
      by rintro rfl; exact absurd hm (by decide)⟩
  | none =>
    rw [getFreeFd, List.find?_eq_none] at hf
    have hall : fa.used = Finset.univ := by
      ext fd
      rw [mem_used]
      simp only [Finset.mem_univ, iff_true]
      by_cases h0 : fd = 0
      · exact h0 ▸ h.stdin.1
      by_cases h1 : fd = 1
      · exact h1 ▸ h.stdout.1
      have hm : fd ∈ ([2, 3, 4, 5, 6, 7] : List (Fin 8)) := by
        revert h0 h1
        revert fd
        decide
      simpa using hf fd hm
    rw [h.count, hall] at hlt
    exact absurd hlt (by decide)

/-- Taking a free descriptor keeps the count right. -/
theorem counted_open (h : fa.Counted) {fd : Fin 8} {e : FileArrayEntry}
    (hu : (fa.openedFiles fd).inUse = false) (he : e.inUse = true) (h0 : fd ≠ 0) (h1 : fd ≠ 1) :
    (fa.set fd e).countUp.Counted where
  stdin := by
    show ((fa.set fd e).openedFiles 0).inUse ∧ _
    rw [countUp, set_of_ne e h0.symm]
    exact h.stdin
  stdout := by
    show ((fa.set fd e).openedFiles 1).inUse ∧ _
    rw [countUp, set_of_ne e h1.symm]
    exact h.stdout
  count := by
    have hn : fd ∉ fa.used := by simp [mem_used, hu]
    show fa.currentOpenFileNum + 1 = ((fa.set fd e).used.card : ℤ)
    rw [used_set_true he, Finset.card_insert_of_notMem hn, h.count, Nat.cast_succ]

/-- Giving a descriptor back keeps the count right. -/
theorem counted_close (h : fa.Counted) {fd : Fin 8} {e : FileArrayEntry}
    (hu : (fa.openedFiles fd).inUse = true) (he : e.inUse = false) (h0 : fd ≠ 0) (h1 : fd ≠ 1) :
    Counted { fa.set fd e with currentOpenFileNum := fa.currentOpenFileNum - 1 } where
  stdin := by
    show ((fa.set fd e).openedFiles 0).inUse ∧ _
    rw [set_of_ne e h0.symm]
    exact h.stdin
  stdout := by
    show ((fa.set fd e).openedFiles 1).inUse ∧ _
    rw [set_of_ne e h1.symm]
    exact h.stdout
  count := by
    show fa.currentOpenFileNum - 1 = ((fa.set fd e).used.card : ℤ)
    have hm : fd ∈ fa.used := mem_used.mpr hu
    have hpos := Finset.card_pos.mpr ⟨fd, hm⟩
    rw [used_set_false he, Finset.card_erase_of_mem hm, h.count]
    omega

/-- Moving the position of a descriptor in use keeps the count right. -/
theorem counted_read (h : fa.Counted) {fd : Fin 8} {position : ℕ}
    (hu : (fa.openedFiles fd).inUse = true) :
    (fa.set fd { fa.openedFiles fd with filePosition := position }).Counted where
  stdin := by
    by_cases h0 : (0 : Fin 8) = fd
    · subst h0; simpa using h.stdin
    · rw [set_of_ne _ h0]; exact h.stdin
  stdout := by
    by_cases h1 : (1 : Fin 8) = fd
    · subst h1; simpa using h.stdout
    · rw [set_of_ne _ h1]; exact h.stdout
  count := by
    rw [used_set_true (by simpa using hu), Finset.insert_eq_of_mem (mem_used.mpr hu)]
    exact h.count

theorem counted_init (fa : FileArray) : fa.init.Counted where
  stdin := by simp [init]
  stdout := by simp [init]
  count := by
    have hu : fa.init.used = {0, 1} := by
      ext fd
      rw [mem_used, Finset.mem_insert, Finset.mem_singleton]
      by_cases h0 : fd = 0
      · simp [init, h0]
      · by_cases h1 : fd = 1
        · simp [init, h1]
        · simp [init, h0, h1]
    rw [hu]
    rfl

theorem usable_eq_some {fd : ℤ} {i : Fin 8} :
    fa.usable fd = some i ↔ fd = (i : ℤ) ∧ (fa.openedFiles i).inUse = true := by
  unfold usable
  by_cases h : 0 ≤ fd ∧ fd < 8
  · rw [dif_pos h]
    by_cases hu : (fa.openedFiles ⟨fd.toNat, by omega⟩).inUse = true
    · simp only [hu, if_true, Option.some.injEq]
      constructor
      · rintro rfl
        exact ⟨by simp [h.1], hu⟩
      · rintro ⟨rfl, _⟩
        simp
    · simp only [hu, if_false, reduceCtorEq, false_iff]
      rintro ⟨rfl, hi⟩
      exact hu (by simpa using hi)
  · rw [dif_neg h]
    simp only [reduceCtorEq, false_iff]
    rintro ⟨rfl, _⟩
    exact h ⟨by omega, by have := i.isLt; omega⟩

/-- What a successful `open` leaves in the descriptor it takes. -/
structure Opened (img : FsImage) (filename : List UInt8) (fa : FileArray) (fd : Fin 8)
    (e : FileArrayEntry) : Prop where
  fresh : (fa.openedFiles fd).inUse = false
  ne_stdin : fd ≠ 0
  ne_stdout : fd ≠ 1
  inUse : e.inUse = true
  position : e.filePosition = 0
  regular : e.fileOpTable = .file →
    ∃ d, img.readDentryByName filename = some d ∧ d.fileType = 2 ∧ e.inode = d.inodeNum

/-- **`system_open`** either leaves the descriptors alone or takes a free one. -/
theorem systemOpen_spec (h : fa.Counted) (rtc : RtcControl) (img : FsImage)
    (filename : List UInt8) :
    (∃ rtc', fa.systemOpen rtc img filename = .ok (-1, fa, rtc')) ∨
      ∃ rtc' fd e, fa.systemOpen rtc img filename =
        .ok ((fd : Fin 8).val, (fa.set fd e).countUp, rtc') ∧
        Opened img filename fa fd e := by
  unfold systemOpen
  by_cases hn : (maxOpenFile : ℤ) ≤ fa.currentOpenFileNum
  · rw [if_pos hn]
    exact Or.inl ⟨rtc, rfl⟩
  rw [if_neg hn]
  obtain ⟨fd, hfd, hu, h0, h1⟩ := getFreeFd_spec h (Int.not_le.mp hn)
  have hopen : ∀ table inode, fa.openEntry table inode = .ok (fd.val, fa.set fd
      { fileOpTable := table, inode := inode, filePosition := 0, inUse := true }) := by
    intro table inode
    rw [openEntry, hfd]
  cases hd : img.readDentryByName filename with
  | none => exact Or.inl ⟨rtc, rfl⟩
  | some d =>
    match ht : d.fileType with
    | 0 =>
      refine Or.inr
        ⟨systemRtcOpen rtc, fd, ⟨.rtc, 0, 0, true⟩, ?_, hu, h0, h1, rfl, rfl, by rintro ⟨⟩⟩
      simp only [ht, localRtcOpen, hopen, ok_bind]
    | 1 =>
      refine Or.inr ⟨rtc, fd, ⟨.dir, 0, 0, true⟩, ?_, hu, h0, h1, rfl, rfl, by rintro ⟨⟩⟩
      simp only [ht, dirOpen, hopen, ok_bind]
    | 2 =>
      refine Or.inr ⟨rtc, fd, ⟨.file, d.inodeNum, 0, true⟩, ?_, hu, h0, h1, rfl, rfl,
        fun _ => ⟨d, hd, ht, rfl⟩⟩
      simp only [ht, fileOpen, hd, hopen, ok_bind]
    | n + 3 => exact Or.inl ⟨rtc, by simp only [ht]⟩

end FileArray

/-! ## The machine -/

/-- The descriptors of a task, with the value that the last call has returned and
the bytes delivered through each descriptor since it was opened. -/
structure Files where
  fa : FileArray
  rtc : RtcControl
  ret : ℤ
  delivered : Fin 8 → List UInt8

/-- A system call of the task; `nbytes` is a non-negative `int32_t`. -/
inductive FileEvent where
  | open (filename : List UInt8)
  | read (fd : ℤ) (nbytes : Fin (2 ^ 31))
  | close (fd : ℤ)

/-- One call.  A terminal or RTC read sleeps and leaves the descriptors alone. -/
def fileStep (img : FsImage) (s : Files) : FileEvent → Except Fault Files
  | .open filename => do
    let (fd, fa, rtc) ← s.fa.systemOpen s.rtc img filename
    .ok { fa := fa, rtc := rtc, ret := fd, delivered := fun i =>
            if (i : ℤ) = fd then [] else s.delivered i }
  | .read fd nbytes =>
    match s.fa.systemRead img fd false nbytes.val with
    | .done ret bytes fa =>
      .ok { s with fa := fa, ret := ret, delivered := fun i =>
              if (i : ℤ) = fd then s.delivered i ++ bytes else s.delivered i }
    | .terminal => .ok s
    | .rtc => .ok s
  | .close fd =>
    let (ret, fa) := s.fa.systemClose fd
    .ok { s with fa := fa, ret := ret }

/-- The descriptors of a new task. -/
def Files.start (fa : FileArray) (rtc : RtcControl) : Files :=
  { fa := fa.init, rtc := rtcControlInit rtc, ret := 0, delivered := fun _ => [] }

/-- `fd` is open on the regular file of `inode`. -/
def Files.OpenOn (s : Files) (fd : Fin 8) (inode : ℕ) : Prop :=
  (s.fa.openedFiles fd).inUse = true ∧ (s.fa.openedFiles fd).fileOpTable = .file ∧
    (s.fa.openedFiles fd).inode = inode

/-- No read is at the end of a file whose last block is full (or that is empty) while
the next entry of its block table is no block number. -/
def BlockBehindEnd (img : FsImage) (s : Files) : FileEvent → Prop
  | .read fd _ => ∀ i, s.fa.usable fd = some i → (s.fa.openedFiles i).fileOpTable = .file →
      let e := s.fa.openedFiles i
      e.filePosition = (img.inodes e.inode).lengthInBytes → e.filePosition % fileBlockSize = 0 →
        (img.inodes e.inode).dataBlockNum (e.filePosition / fileBlockSize) < img.dataBlockNum
  | _ => True

instance (img : FsImage) (s : Files) (e : FileEvent) : Decidable (BlockBehindEnd img s e) :=
  match e with
  | .open _ => isTrue trivial
  | .close _ => isTrue trivial
  | .read fd nbytes =>
    match h : s.fa.usable fd with
    | none => isTrue (by intro i hi; rw [h] at hi; cases hi)
    | some i =>
      let e := s.fa.openedFiles i
      decidable_of_iff (e.fileOpTable = .file →
          e.filePosition = (img.inodes e.inode).lengthInBytes → e.filePosition % fileBlockSize = 0 →
            (img.inodes e.inode).dataBlockNum (e.filePosition / fileBlockSize) < img.dataBlockNum)
        (by simp [BlockBehindEnd, h, e])

/-- The invariant: what has been delivered through a descriptor is the part of its file
in front of its position. -/
structure FilesInv (img : FsImage) (s : Files) : Prop where
  counted : s.fa.Counted
  file : ∀ fd inode, s.OpenOn fd inode → inode < img.inodeNum ∧
    (s.fa.openedFiles fd).filePosition ≤ (img.inodes inode).lengthInBytes ∧
    s.delivered fd = (img.contents inode).take (s.fa.openedFiles fd).filePosition

/-- A read of `nbytes` through `fd` has returned the next bytes of the file, as many as
asked for and left, and has touched no other descriptor. -/
structure SequentialRead (img : FsImage) (s : Files) (fd : Fin 8) (inode nbytes : ℕ)
    (s' : Files) : Prop where
  ret : s'.ret = (min nbytes ((img.contents inode).length - (s.delivered fd).length) : ℕ)
  delivered : s'.delivered fd =
    (img.contents inode).take ((s.delivered fd).length + s'.ret.toNat)
  others : ∀ i, i ≠ fd →
    s'.fa.openedFiles i = s.fa.openedFiles i ∧ s'.delivered i = s.delivered i

/-- **A read of a regular file** goes on where the last one stopped. -/
theorem read_sequential {img : FsImage} (h : img.WellFormed) {s : Files} (hi : FilesInv img s)
    {fd : Fin 8} {inode : ℕ} (ho : s.OpenOn fd inode) (nbytes : Fin (2 ^ 31))
    (hc : BlockBehindEnd img s (.read fd nbytes)) :
    ∃ s', fileStep img s (.read fd nbytes) = .ok s' ∧ FilesInv img s' ∧
      SequentialRead img s fd inode nbytes s' := by
  obtain ⟨hu, ht, rfl⟩ := ho
  obtain ⟨hin, hle, hdel⟩ := hi.file fd _ ⟨hu, ht, rfl⟩
  have husable := FileArray.usable_eq_some.mpr ⟨rfl, hu⟩
  set e := s.fa.openedFiles fd with he
  have hmod : (((nbytes.val : ℕ) : ℤ) % 2 ^ 32).toNat = nbytes.val := by
    have := nbytes.isLt
    omega
  have hblock : (img.inodes e.inode).dataBlockNum (e.filePosition / fileBlockSize)
      < img.dataBlockNum := by
    by_cases hend : e.filePosition = (img.inodes e.inode).lengthInBytes ∧
        e.filePosition % fileBlockSize = 0
    · exact hc fd husable ht hend.1 hend.2
    · exact FsImage.block_lt h hin hle (fun h1 h2 => hend ⟨h1, h2⟩)
  have hread := FsImage.readData_eq h hin hblock nbytes
  have hlen : (s.delivered fd).length = e.filePosition := by simp [hdel, hle]
  set bytes := ((img.contents e.inode).drop e.filePosition).take nbytes with hb
  have hbytes : bytes.length =
    min nbytes.val ((img.inodes e.inode).lengthInBytes - e.filePosition) := by
    simp [hb]
  have hlarge := h.length e.inode hin
  simp only [inodeBlocks, fileBlockSize] at hlarge
  have hret : (BitVec.ofNat 32 bytes.length).toInt = bytes.length := by
    rw [BitVec.toInt_ofNat']
    exact Int.bmod_eq_of_le (by omega) (by omega)
  have hpos : (e.filePosition + bytes.length) % 2 ^ 32 = e.filePosition + bytes.length :=
    Nat.mod_eq_of_lt (by omega)
  have hstep : fileStep img s (.read fd nbytes) = .ok { s with
      fa := s.fa.set fd { e with filePosition := e.filePosition + bytes.length }
      ret := bytes.length
      delivered := fun i => if (i : ℤ) = fd then s.delivered i ++ bytes else s.delivered i } := by
    have hne : ((bytes.length : ℕ) : ℤ) ≠ -1 := by omega
    simp only [fileStep, FileArray.systemRead, husable, FileArray.fileRead, hmod, ← he, ht, hread,
      hret, hpos, hne, Bool.false_eq_true, and_false, if_false]
  have hcast : ∀ i : Fin 8, ((i : ℤ) = fd) ↔ i = fd := by
    intro i
    rw [Nat.cast_inj, Fin.val_inj]
  have happend : (img.contents e.inode).take e.filePosition ++ bytes
      = (img.contents e.inode).take (e.filePosition + bytes.length) := by
    rw [hbytes, hb, List.take_add]
    congr 1
    rw [List.take_eq_take_iff, List.length_drop, FsImage.length_contents]
    omega
  refine ⟨_, hstep, ⟨FileArray.counted_read hi.counted hu, ?_⟩, ?_, ?_, ?_⟩
  · intro i inode hopen
    by_cases hif : i = fd
    · subst hif
      simp only [Files.OpenOn, FileArray.set_self] at hopen
      obtain ⟨_, _, rfl⟩ := hopen
      simp only [FileArray.set_self, if_true, hdel, happend]
      exact ⟨hin, by omega, trivial⟩
    · simp only [Files.OpenOn, FileArray.set_of_ne _ hif] at hopen
      simp only [FileArray.set_of_ne _ hif, hcast, hif, if_false]
      exact hi.file i inode hopen
  · simp only [hbytes, FsImage.length_contents, hlen]
  · simp only [if_true, Int.toNat_natCast, hlen]
    rw [hdel, happend]
  · intro i hif
    simp only [FileArray.set_of_ne _ hif, hcast, hif, if_false, and_self]

/-- Opening keeps the invariant, and a new descriptor starts at the beginning of a
file of the image. -/
theorem open_inv {img : FsImage} (h : img.WellFormed) {s : Files} (hi : FilesInv img s)
    (filename : List UInt8) : ∃ s', fileStep img s (.open filename) = .ok s' ∧ FilesInv img s' := by
  rcases FileArray.systemOpen_spec hi.counted s.rtc img filename with
    ⟨rtc', hopen⟩ | ⟨rtc', fd, e, hopen, ho⟩
  · have hstep : fileStep img s (.open filename) = .ok { s with
        rtc := rtc'
        ret := -1
        delivered := fun i => if (i : ℤ) = -1 then [] else s.delivered i } := by
      simp only [fileStep, hopen, ok_bind]
    refine ⟨_, hstep, hi.counted, ?_⟩
    intro i inode hopen
    have hneg : (i : ℤ) ≠ -1 := by omega
    simp only [hneg, if_false]
    exact hi.file i inode hopen
  · have hstep : fileStep img s (.open filename) = .ok {
        fa := (s.fa.set fd e).countUp
        rtc := rtc'
        ret := fd.val
        delivered := fun i => if (i : ℤ) = fd.val then [] else s.delivered i } := by
      simp only [fileStep, hopen, ok_bind]
    refine ⟨_, hstep,
      FileArray.counted_open hi.counted ho.fresh ho.inUse ho.ne_stdin ho.ne_stdout, ?_⟩
    intro i inode hopen
    by_cases hif : i = fd
    · subst hif
      simp only [Files.OpenOn, FileArray.countUp, FileArray.set_self] at hopen
      obtain ⟨d, hd, htype, hinode⟩ := ho.regular hopen.2.1
      obtain ⟨j, hj, rfl⟩ := FsImage.readDentryByName_mem hd
      refine ⟨hopen.2.2 ▸ hinode ▸ h.regular j hj htype, ?_, ?_⟩
      · simp [FileArray.countUp, ho.position]
      · simp [FileArray.countUp, ho.position]
    · have hne : (i : ℤ) ≠ fd.val := by
        rw [Ne, Nat.cast_inj, Fin.val_inj]
        exact hif
      simp only [Files.OpenOn, FileArray.countUp, FileArray.set_of_ne _ hif] at hopen
      simp only [FileArray.countUp, FileArray.set_of_ne _ hif, hne, if_false]
      exact hi.file i inode hopen

/-- Closing keeps the invariant. -/
theorem close_inv {img : FsImage} {s : Files} (hi : FilesInv img s) (fd : ℤ) :
    ∃ s', fileStep img s (.close fd) = .ok s' ∧ FilesInv img s' := by
  refine ⟨{ s with fa := (s.fa.systemClose fd).2, ret := (s.fa.systemClose fd).1 }, rfl, ?_⟩
  unfold FileArray.systemClose
  by_cases h01 : fd = 0 ∨ fd = 1
  · rw [if_pos h01]
    exact ⟨hi.counted, hi.file⟩
  rw [if_neg h01]
  cases hfd : s.fa.usable fd with
  | none => exact ⟨hi.counted, hi.file⟩
  | some i =>
    obtain ⟨rfl, hu⟩ := FileArray.usable_eq_some.mp hfd
    have h0 : i ≠ 0 := by rintro rfl; exact h01 (Or.inl rfl)
    have h1 : i ≠ 1 := by rintro rfl; exact h01 (Or.inr rfl)
    refine ⟨FileArray.counted_close hi.counted hu rfl h0 h1, ?_⟩
    intro j inode hopen
    by_cases hji : j = i
    · subst hji
      simp [Files.OpenOn] at hopen
    · simp only [Files.OpenOn, FileArray.set_of_ne _ hji] at hopen
      simp only [FileArray.set_of_ne _ hji]
      exact hi.file j inode hopen

/-- A read through a descriptor that is not a regular file delivers no byte of one. -/
theorem read_other_inv {img : FsImage} {s : Files} (hi : FilesInv img s) (fd : ℤ)
    (nbytes : Fin (2 ^ 31))
    (hno : ∀ i, s.fa.usable fd = some i → (s.fa.openedFiles i).fileOpTable ≠ .file) :
    ∃ s', fileStep img s (.read fd nbytes) = .ok s' ∧ FilesInv img s' := by
  simp only [fileStep, FileArray.systemRead, Bool.false_eq_true, and_false, if_false]
  cases hfd : s.fa.usable fd with
  | none =>
    refine ⟨_, rfl, hi.counted, fun i inode hopen => ?_⟩
    simpa using hi.file i inode hopen
  | some i =>
    obtain ⟨rfl, hu⟩ := FileArray.usable_eq_some.mp hfd
    have hkeep : ∀ fa : FileArray, fa.Counted →
        (∀ j, j ≠ i → fa.openedFiles j = s.fa.openedFiles j) →
        (fa.openedFiles i).fileOpTable ≠ .file → ∀ (ret : ℤ) (bytes : List UInt8),
        FilesInv img { s with
          fa := fa
          ret := ret
          delivered := fun j =>
            if (j : ℤ) = i then s.delivered j ++ bytes else s.delivered j } := by
      intro fa hfa hsame hother ret bytes
      refine ⟨hfa, fun j inode hopen => ?_⟩
      by_cases hji : j = i
      · exact absurd hopen.2.1 (hji ▸ hother)
      · have hne : (j : ℤ) ≠ i := by
          rw [Ne, Nat.cast_inj, Fin.val_inj]
          exact hji
        simp only [Files.OpenOn, hsame j hji] at hopen
        simp only [hsame j hji, hne, if_false]
        exact hi.file j inode hopen
    have hself := hkeep s.fa hi.counted (fun _ _ => rfl) (hno i hfd)
    cases ht : (s.fa.openedFiles i).fileOpTable with
    | terminal =>
      by_cases hi0 : (i : ℤ) ≠ 0
      · simp only [ht, if_pos hi0]
        exact ⟨_, rfl, hself _ _⟩
      · simp only [ht, if_neg hi0]
        exact ⟨s, rfl, hi⟩
    | rtc =>
      simp only [ht]
      exact ⟨s, rfl, hi⟩
    | file => exact absurd ht (hno i hfd)
    | dir =>
      simp only [ht]
      simp only [FileArray.dirRead]
      by_cases hend : img.dirNum ≤ (s.fa.openedFiles i).filePosition
      · simp only [if_pos hend]
        exact ⟨_, rfl, hself _ _⟩
      · simp only [if_neg hend]
        refine ⟨_, rfl, hkeep _ (FileArray.counted_read hi.counted hu) ?_ ?_ _ _⟩
        · intro j hji
          exact FileArray.set_of_ne _ hji
        · simp [ht]

/-- Every call keeps the invariant. -/
theorem fileStep_inv {img : FsImage} (h : img.WellFormed) {s : Files} (hi : FilesInv img s)
    {e : FileEvent} (hc : BlockBehindEnd img s e) :
    ∃ s', fileStep img s e = .ok s' ∧ FilesInv img s' := by
  cases e with
  | «open» filename => exact open_inv h hi filename
  | close fd => exact close_inv hi fd
  | read fd nbytes =>
    by_cases hfile : ∃ i, s.fa.usable fd = some i ∧ (s.fa.openedFiles i).fileOpTable = .file
    · obtain ⟨i, hfd, ht⟩ := hfile
      obtain ⟨rfl, hu⟩ := FileArray.usable_eq_some.mp hfd
      obtain ⟨s', hs, hi', _⟩ := read_sequential h hi ⟨hu, ht, rfl⟩ nbytes hc
      exact ⟨s', hs, hi'⟩
    · exact read_other_inv hi fd nbytes fun i hfd ht => hfile ⟨i, hfd, ht⟩

/-- **Sequential reads of regular files.**  In a run of opens, reads and closes that reads
no file at its end while the word behind its block numbers is no block number, what
has been delivered through a descriptor is a prefix of its file, and the next read
returns the next bytes, as many as asked for and left. -/
theorem files_sequential {img : FsImage} (h : img.WellFormed) (fa : FileArray) (rtc : RtcControl)
    (events : List FileEvent)
    (hm : Meets (fileStep img) (BlockBehindEnd img) (Files.start fa rtc) events) :
    ∃ s, run (fileStep img) (Files.start fa rtc) events = .ok s ∧
      ∀ fd inode, s.OpenOn fd inode → s.delivered fd <+: img.contents inode ∧
        ∀ nbytes, BlockBehindEnd img s (.read fd nbytes) →
          ∃ s', fileStep img s (.read fd nbytes) = .ok s' ∧
            SequentialRead img s fd inode nbytes s' := by
  have hstart : FilesInv img (Files.start fa rtc) := by
    refine ⟨FileArray.counted_init fa, fun i inode hopen => ?_⟩
    simp only [Files.start, Files.OpenOn, FileArray.init] at hopen
    by_cases h0 : i = 0
    · simp [h0] at hopen
    · by_cases h1 : i = 1
      · simp [h1] at hopen
      · simp [h0, h1] at hopen
  obtain ⟨s, hs, hi⟩ := run_total (fun s e hi hc => fileStep_inv h hi hc) hstart hm
  refine ⟨s, hs, fun fd inode ho => ⟨?_, ?_⟩⟩
  · rw [(hi.file fd inode ho).2.2]
    exact List.take_prefix _ _
  · intro nbytes hc
    obtain ⟨s', hs', _, hr⟩ := read_sequential h hi ho nbytes hc
    exact ⟨s', hs', hr⟩

/-- An image with one file, `a`, of the given length; all entries of its block table
behind the first block are 5, which is no block of the image. -/
def oneFile (length : ℕ) : FsImage where
  dirNum := 1
  inodeNum := 1
  dataBlockNum := 1
  dirEntries := fun _ => { fileName := [97], fileType := 2, inodeNum := 0 }
  inodes := fun _ => {
    lengthInBytes := length
    dataBlockNum := fun b => if b * fileBlockSize < length then 0 else 5 }
  dataBlocks := fun _ offset => UInt8.ofNat offset

theorem oneFile_wellFormed {length : ℕ} (h : length ≤ inodeBlocks * fileBlockSize) :
    (oneFile length).WellFormed where
  dirNum := by norm_num [oneFile]
  regular := fun _ _ _ => Nat.one_pos
  length := fun _ _ => h
  block := by
    intro n _ b hb
    show (if b * fileBlockSize < length then 0 else 5) < 1
    rw [if_pos (show b * fileBlockSize < length from hb)]
    exact Nat.one_pos

theorem files_sequential_oneFile :
    ∃ s, run (fileStep (oneFile 3)) (Files.start ⟨fun _ => .free, 0⟩ ⟨0, 0⟩)
        [.open [97], .read 2 2, .read 2 2, .read 2 2] = .ok s ∧
      ∀ fd inode, s.OpenOn fd inode → s.delivered fd <+: (oneFile 3).contents inode ∧
        ∀ nbytes, BlockBehindEnd (oneFile 3) s (.read fd nbytes) →
          ∃ s', fileStep (oneFile 3) s (.read fd nbytes) = .ok s' ∧
            SequentialRead (oneFile 3) s fd inode nbytes s' :=
  files_sequential (oneFile_wellFormed (by decide)) ⟨fun _ => .free, 0⟩ ⟨0, 0⟩
    [.open [97], .read 2 2, .read 2 2, .read 2 2] (by decide +kernel)

/-- **A read at the end of a file can fail.**  In a well-formed image with an empty file,
the first read of that file returns -1 and not 0. -/
theorem files_read_at_end :
    (oneFile 0).WellFormed ∧ ∃ s s',
      run (fileStep (oneFile 0)) (Files.start ⟨fun _ => .free, 0⟩ ⟨0, 0⟩) [.open [97]] = .ok s ∧
      s.OpenOn 2 0 ∧ fileStep (oneFile 0) s (.read 2 1) = .ok s' ∧
      ¬ SequentialRead (oneFile 0) s 2 0 1 s' := by
  have hrun : (run (fileStep (oneFile 0)) (Files.start ⟨fun _ => .free, 0⟩ ⟨0, 0⟩)
      [.open [97]]).toOption.map (fun s => (s.fa.openedFiles 2, (s.delivered 2).length))
      = some (⟨.file, 0, 0, true⟩, 0) := by decide +kernel
  have hread : (run (fileStep (oneFile 0)) (Files.start ⟨fun _ => .free, 0⟩ ⟨0, 0⟩)
      [.open [97], .read 2 1]).toOption.map (fun s => s.ret) = some (-1) := by decide +kernel
  obtain ⟨s, hs, hopen⟩ := toOption_map_eq_some.mp hrun
  obtain ⟨s', hs', hret⟩ := toOption_map_eq_some.mp hread
  rw [Prod.mk.injEq] at hopen
  have happ : [FileEvent.open [97], .read 2 1] = [.open [97]] ++ [.read 2 1] := rfl
  rw [happ, run_append] at hs'
  obtain ⟨u, hu, hr⟩ := hs'
  obtain rfl : s = u := Except.ok.inj (hs.symm.trans hu)
  obtain ⟨t, ht, hnil⟩ := run_cons_ok.mp hr
  obtain rfl : t = s' := Except.ok.inj hnil
  refine ⟨oneFile_wellFormed (by decide), s, t, hs, by simp [Files.OpenOn, hopen.1], ht, ?_⟩
  intro hseq
  have := hseq.ret
  rw [hret] at this
  omega

end AuroraOS
