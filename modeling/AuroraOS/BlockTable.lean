/-
# The block table of an inode

`file_system.c`, `read_data` with its accesses checked: an index into `data_block_num` has to be
below 1023, and a data block has to be one of the image.  The number of the next block is looked
up after the last byte of every block, so a read of a file that fills its table looks one entry
too far, unless it stops before the end of the file.
-/
import AuroraOS.FileRead

namespace AuroraOS

namespace FsImage

variable (img : FsImage)

/-! ## The checked function -/

/-- `inodes[inode].data_block_num[k]`, as long as `k` is inside the table. -/
def tableEntry (inode : Inode) (k : ℕ) : Option ℕ :=
  if k < inodeBlocks then some (inode.dataBlockNum k) else none

/-- `data_blocks[num].data[offset]`, as long as the block is one of the image and the offset is
inside it. -/
def blockByte (num offset : ℕ) : Option UInt8 :=
  if num < img.dataBlockNum ∧ offset < fileBlockSize then some (img.dataBlocks num offset)
  else none

/-- The loop of `read_data` with every access checked. -/
def readLoopChecked (inode : Inode) : ℕ → ℕ → ℕ → ℕ → ℕ → Option (List UInt8)
  | 0, _, _, _, _ => some []
  | n + 1, offset, index, num, blockOffset =>
    if inode.lengthInBytes ≤ offset then some []
    else
      (img.blockByte num blockOffset).bind fun byte =>
        if fileBlockSize ≤ blockOffset + 1 then
          (tableEntry inode (index + 1)).bind fun num =>
            if img.dataBlockNum ≤ num then some [byte]
            else
              (readLoopChecked inode n (offset + 1) (index + 1) num
                (blockOffset + 1 - fileBlockSize)).map (byte :: ·)
        else (readLoopChecked inode n (offset + 1) index num (blockOffset + 1)).map (byte :: ·)

/-- `read_data` with every access checked: `none` when one of them is outside. -/
def readDataChecked (inode offset length : ℕ) : Option (Option (List UInt8)) :=
  if img.inodeNum ≤ inode then some none
  else
    let index := offset / fileBlockSize
    let blockOffset := offset - index * fileBlockSize
    (tableEntry (img.inodes inode) index).bind fun num =>
      if img.dataBlockNum ≤ num then some none
      else
        (img.readLoopChecked (img.inodes inode) length offset index num blockOffset).map some

/-! ## The loop -/

theorem tableEntry_of_lt {inode : Inode} {k : ℕ} (h : k < inodeBlocks) :
    tableEntry inode k = some (inode.dataBlockNum k) := if_pos h

theorem tableEntry_of_le {inode : Inode} {k : ℕ} (h : inodeBlocks ≤ k) :
    tableEntry inode k = none := if_neg (Nat.not_lt.mpr h)

variable {img}

/-- A loop that has `n` bytes left comes to the end of a file that fills its table: every block
behind the current one is a block of the image. -/
def LoopOverruns (img : FsImage) (inode : Inode) (n offset : ℕ) : Prop :=
  inode.lengthInBytes = inodeBlocks * fileBlockSize ∧ inodeBlocks * fileBlockSize ≤ offset + n ∧
    ∀ k, offset / fileBlockSize < k → k < inodeBlocks → inode.dataBlockNum k < img.dataBlockNum

/-- Inside a block, the blocks behind the current one stay the same. -/
theorem loopOverruns_succ {inode : Inode} {n offset : ℕ}
    (hdiv : (offset + 1) / fileBlockSize = offset / fileBlockSize) :
    LoopOverruns img inode n (offset + 1) ↔ LoopOverruns img inode (n + 1) offset := by
  rw [LoopOverruns, LoopOverruns, hdiv, Nat.add_right_comm, Nat.add_assoc]

/-- At the end of a block, the next one has to be a block of the image. -/
theorem loopOverruns_next {inode : Inode} {n offset : ℕ}
    (hdiv : (offset + 1) / fileBlockSize = offset / fileBlockSize + 1)
    (hin : offset / fileBlockSize + 1 < inodeBlocks) :
    LoopOverruns img inode (n + 1) offset ↔
      inode.dataBlockNum (offset / fileBlockSize + 1) < img.dataBlockNum ∧
        LoopOverruns img inode n (offset + 1) := by
  rw [LoopOverruns, LoopOverruns, hdiv, Nat.add_right_comm offset 1 n, Nat.add_assoc offset n 1]
  constructor
  · rintro ⟨hlen, hn, hblocks⟩
    exact ⟨hblocks _ (Nat.lt_succ_self _) hin, hlen, hn, fun k hk =>
      hblocks k ((Nat.lt_succ_self _).trans hk)⟩
  · rintro ⟨hnext, hlen, hn, hblocks⟩
    refine ⟨hlen, hn, fun k hk hk' => ?_⟩
    rcases Nat.eq_or_lt_of_le (Nat.succ_le_of_lt hk) with rfl | hlt
    · exact hnext
    · exact hblocks k hlt hk'

/-- **The loop** leaves the table exactly when it comes to the end of a file that fills it. -/
theorem readLoopChecked_eq {inode : Inode}
    (hlen : inode.lengthInBytes ≤ inodeBlocks * fileBlockSize) :
    ∀ n offset num, offset < inodeBlocks * fileBlockSize → num < img.dataBlockNum →
      (LoopOverruns img inode n offset →
        img.readLoopChecked inode n offset (offset / fileBlockSize) num
          (offset % fileBlockSize) = none) ∧
      (¬ LoopOverruns img inode n offset →
        img.readLoopChecked inode n offset (offset / fileBlockSize) num
          (offset % fileBlockSize) =
        some (img.readLoop inode n offset (offset / fileBlockSize) num
          (offset % fileBlockSize))) := by
  intro n
  induction n with
  | zero =>
    intro offset num hoff _
    refine ⟨fun h => ?_, fun _ => rfl⟩
    have hend := h.2.1
    omega
  | succ n ih =>
    intro offset num hoff hnum
    have hmod : offset % fileBlockSize < fileBlockSize := Nat.mod_lt _ (by decide)
    have hbyte : img.blockByte num (offset % fileBlockSize) =
        some (img.dataBlocks num (offset % fileBlockSize)) := if_pos ⟨hnum, hmod⟩
    rw [readLoopChecked, readLoop, hbyte, Option.bind_some]
    by_cases hend : inode.lengthInBytes ≤ offset
    · rw [if_pos hend, if_pos hend]
      refine ⟨fun h => ?_, fun _ => rfl⟩
      have hfull := h.1
      omega
    rw [if_neg hend, if_neg hend]
    by_cases hblock : fileBlockSize ≤ offset % fileBlockSize + 1
    · -- the last byte of a block: the table is consulted for the next one
      have hdiv : (offset + 1) / fileBlockSize = offset / fileBlockSize + 1 := by
        simp only [fileBlockSize] at hblock ⊢
        omega
      have hzero : offset % fileBlockSize + 1 - fileBlockSize = (offset + 1) % fileBlockSize := by
        simp only [fileBlockSize] at hblock ⊢
        omega
      simp only [if_pos hblock]
      by_cases hin : offset / fileBlockSize + 1 < inodeBlocks
      · rw [tableEntry_of_lt hin, Option.bind_some, loopOverruns_next hdiv hin]
        by_cases hnext : img.dataBlockNum ≤ inode.dataBlockNum (offset / fileBlockSize + 1)
        · rw [if_pos hnext, if_pos hnext]
          exact ⟨fun h => absurd h.1 (Nat.not_lt.mpr hnext), fun _ => rfl⟩
        · have hnum' := Nat.not_le.mp hnext
          have hoff' : offset + 1 < inodeBlocks * fileBlockSize := by
            simp only [fileBlockSize, inodeBlocks] at hin hoff hdiv ⊢
            omega
          have hrest := ih (offset + 1) _ hoff' hnum'
          rw [hdiv] at hrest
          rw [if_neg hnext, if_neg hnext, hzero]
          refine ⟨fun h => ?_, fun h => ?_⟩
          · rw [hrest.1 h.2]
            rfl
          · rw [hrest.2 fun h' => h ⟨hnum', h'⟩]
            rfl
      · rw [tableEntry_of_le (Nat.not_lt.mp hin)]
        refine ⟨fun _ => rfl, fun h => absurd ?_ h⟩
        simp only [fileBlockSize, inodeBlocks] at hin hoff hdiv hlen hend ⊢
        refine ⟨?_, ?_, fun k hk hk' => ?_⟩
        · simp only [fileBlockSize, inodeBlocks]
          omega
        · simp only [fileBlockSize, inodeBlocks]
          omega
        · simp only [fileBlockSize, inodeBlocks] at hk hk'
          omega
    · have hdiv : (offset + 1) / fileBlockSize = offset / fileBlockSize := by
        simp only [fileBlockSize] at hblock ⊢
        omega
      have hnext : offset % fileBlockSize + 1 = (offset + 1) % fileBlockSize := by
        simp only [fileBlockSize] at hblock ⊢
        omega
      have hoff' : offset + 1 < inodeBlocks * fileBlockSize := by
        simp only [fileBlockSize, inodeBlocks] at hblock hoff ⊢
        omega
      have hrest := ih (offset + 1) num hoff' hnum
      rw [hdiv, loopOverruns_succ hdiv] at hrest
      simp only [if_neg hblock]
      rw [hnext]
      refine ⟨fun h => ?_, fun h => ?_⟩
      · rw [hrest.1 h]
        rfl
      · rw [hrest.2 h]
        rfl

/-! ## The function -/

/-- A read that comes to the end of a file that fills its table. -/
def Overruns (img : FsImage) (inode offset length : ℕ) : Prop :=
  inode < img.inodeNum ∧ (img.inodes inode).lengthInBytes = inodeBlocks * fileBlockSize ∧
    inodeBlocks * fileBlockSize ≤ offset + length ∧
      ∀ k, offset / fileBlockSize ≤ k → k < inodeBlocks →
        (img.inodes inode).dataBlockNum k < img.dataBlockNum

/-- **When `read_data` stays inside the inode and the data area**: exactly when it does not come
to the end of a file of 1023 blocks. -/
theorem readDataChecked_iff (img : FsImage) (inode offset length : ℕ)
    (hfiles : ∀ n < img.inodeNum, (img.inodes n).lengthInBytes ≤ inodeBlocks * fileBlockSize)
    (hoff : inode < img.inodeNum → offset ≤ (img.inodes inode).lengthInBytes) :
    img.readDataChecked inode offset length = some (img.readData inode offset length) ↔
      ¬ img.Overruns inode offset length := by
  rw [readDataChecked, readData]
  by_cases hin : img.inodeNum ≤ inode
  · rw [if_pos hin, if_pos hin]
    exact iff_of_true rfl fun h => absurd h.1 (Nat.not_lt.mpr hin)
  have hlt := Nat.not_le.mp hin
  have hlen := hfiles inode hlt
  have hle := hoff hlt
  rw [if_neg hin, if_neg hin]
  by_cases hfull : offset < inodeBlocks * fileBlockSize
  · have hindex : offset / fileBlockSize < inodeBlocks := by
      simp only [fileBlockSize, inodeBlocks] at hfull ⊢
      omega
    simp only [tableEntry_of_lt hindex, Option.bind_some]
    by_cases hnum : img.dataBlockNum ≤ (img.inodes inode).dataBlockNum (offset / fileBlockSize)
    · rw [if_pos hnum, if_pos hnum]
      refine iff_of_true rfl fun h => ?_
      exact absurd (h.2.2.2 _ le_rfl hindex) (Nat.not_lt.mpr hnum)
    · have hnum' := Nat.not_le.mp hnum
      have hsub : offset - offset / fileBlockSize * fileBlockSize = offset % fileBlockSize := by
        rw [Nat.mul_comm]
        exact Nat.sub_eq_of_eq_add (Nat.mod_add_div offset fileBlockSize).symm
      have hloop := readLoopChecked_eq hlen length offset _ hfull hnum'
      have hiff : img.Overruns inode offset length ↔
          LoopOverruns img (img.inodes inode) length offset := by
        refine ⟨fun h => ⟨h.2.1, h.2.2.1, fun k hk => h.2.2.2 k hk.le⟩, fun h => ?_⟩
        refine ⟨hlt, h.1, h.2.1, fun k hk hk' => ?_⟩
        rcases Nat.eq_or_lt_of_le hk with rfl | hgt
        · exact hnum'
        · exact h.2.2 k hgt hk'
      rw [if_neg hnum, if_neg hnum, hsub, hiff]
      by_cases hover : LoopOverruns img (img.inodes inode) length offset
      · rw [hloop.1 hover]
        exact iff_of_false (Option.some_ne_none _).symm (not_not_intro hover)
      · rw [hloop.2 hover]
        exact iff_of_true rfl hover
  · have hindex : inodeBlocks ≤ offset / fileBlockSize := by
      simp only [fileBlockSize, inodeBlocks] at hfull ⊢
      omega
    simp only [tableEntry_of_le hindex, Option.bind_none]
    refine iff_of_false (Option.some_ne_none _).symm (not_not_intro ⟨hlt, ?_, ?_, fun k hk hk' => ?_⟩)
    · omega
    · omega
    · omega

/-- All but the last byte of a file that fills its table. -/
theorem readDataChecked_oneFile : (oneFile (1023 * 4096)).readDataChecked 0 (1022 * 4096) 4095 =
    some ((oneFile (1023 * 4096)).readData 0 (1022 * 4096) 4095) := by
  refine (readDataChecked_iff _ _ _ _ (fun _ _ => le_rfl) fun _ => by decide).mpr fun h => ?_
  exact absurd h.2.2.1 (by decide)

/-- **A read at the end of a file that fills its table** looks up the entry 1023 of the table. -/
theorem readDataChecked_end :
    (∀ n < (oneFile (1023 * 4096)).inodeNum,
      ((oneFile (1023 * 4096)).inodes n).lengthInBytes ≤ inodeBlocks * fileBlockSize) ∧
    (oneFile (1023 * 4096)).readDataChecked 0 (1023 * 4096) 1 = none := by
  exact ⟨fun _ _ => le_rfl, by decide⟩

end FsImage

end AuroraOS
