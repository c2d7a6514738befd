/-
# Names in the directory

A file name is a field of 32 bytes, which ends at its first NUL if there is one.  The
lookup compares such a field with a C string by `strncmp`, and `dir_read` copies it by
`strncpy`; both come to the same name, and this is what makes the listing of a directory
agree with the lookup, up to names of exactly 32 characters.
-/
import AuroraOS.Descriptors

namespace AuroraOS

/-! ## C strings -/

/-- The characters of a C string. -/
def cString (s : List UInt8) : List UInt8 := s.takeWhile (· ≠ 0)

/-- The characters in a field of `n` bytes: up to the first NUL, or all of them. -/
def field (n : ℕ) (bytes : List UInt8) : List UInt8 := cString (bytes.take n)

/-- No character of a string is NUL. -/
theorem ne_zero_of_mem_cString {s : List UInt8} {c : UInt8} (hc : c ∈ cString s) : c ≠ 0 := by
  have h := List.mem_takeWhile_imp hc
  simpa using h

/-- A string without a NUL is all of it. -/
theorem cString_eq_self {s : List UInt8} (h : ∀ c ∈ s, c ≠ 0) : cString s = s :=
  List.takeWhile_eq_self_iff.mpr fun c hc => by simpa using h c hc

/-- A string from an index on, by its character there. -/
theorem cString_drop (s : List UInt8) (i : ℕ) :
    cString (s.drop i) = if charAt s i = 0 then [] else charAt s i :: cString (s.drop (i + 1)) := by
  by_cases h : i < s.length
  · have hc : charAt s i = s[i] := by simp [charAt, h]
    rw [List.drop_eq_getElem_cons h, cString, List.takeWhile_cons, hc]
    by_cases h0 : s[i] = 0
    · simp [h0]
    · simp [h0, cString]
  · have hc : charAt s i = 0 := by simp [charAt, Nat.not_lt.mp h]
    rw [hc, if_pos rfl, List.drop_eq_nil_of_le (Nat.not_lt.mp h)]
    rfl

theorem field_eq_take (n : ℕ) (s : List UInt8) : field n s = (cString s).take n := by
  induction n generalizing s with
  | zero => simp [field, cString]
  | succ n ih =>
    cases s with
    | nil => rfl
    | cons c s =>
      have := ih s
      simp only [field, cString] at this ⊢
      rw [List.take_succ_cons, List.takeWhile_cons, List.takeWhile_cons]
      split
      · rw [List.take_succ_cons, this]
      · rfl

theorem field_length_le (n : ℕ) (s : List UInt8) : (field n s).length ≤ n := by
  rw [field_eq_take]
  exact List.length_take_le _ _

/-- The difference of two characters is 0 when they are the same. -/
theorem toInt8_sub_eq_zero {c d : UInt8} : c.toInt8.toInt - d.toInt8.toInt = 0 ↔ c = d := by
  rw [sub_eq_zero]
  constructor
  · intro h
    have h8 : c.toInt8 = d.toInt8 := Int8.toInt_inj.mp h
    have := congrArg Int8.toUInt8 h8
    simpa using this
  · rintro rfl
    rfl

/-- The loop of `strncmp` compares the next `n` characters. -/
theorem strncmpLoop_eq_zero (s1 s2 : List UInt8) :
    ∀ n i, strncmpLoop s1 s2 n i = 0 ↔
      (cString (s1.drop i)).take n = (cString (s2.drop i)).take n
  | 0, i => by simp [strncmpLoop]
  | n + 1, i => by
    rw [strncmpLoop, cString_drop s1 i, cString_drop s2 i]
    by_cases hne : charAt s1 i = charAt s2 i
    · by_cases h0 : charAt s2 i = 0
      · simp [hne, h0]
      · rw [if_neg (by simp [hne, h0]), hne, if_neg h0, if_neg h0, List.take_succ_cons,
          List.take_succ_cons, strncmpLoop_eq_zero s1 s2 n (i + 1), List.cons_inj_right]
    · rw [if_pos (Or.inl hne), toInt8_sub_eq_zero]
      refine iff_of_false hne ?_
      by_cases h1 : charAt s1 i = 0
      · rw [if_pos h1, if_neg (fun h2 => hne (h1.trans h2.symm))]
        simp
      · rw [if_neg h1]
        by_cases h2 : charAt s2 i = 0
        · simp [h2]
        · rw [if_neg h2, List.take_succ_cons, List.take_succ_cons]
          intro heq
          exact hne (List.cons.inj heq).1

/-- **`strncmp`** compares two strings as fields of `n` bytes. -/
theorem strncmp_eq_zero (s1 s2 : List UInt8) (n : ℕ) :
    strncmp s1 s2 n = 0 ↔ field n s1 = field n s2 := by
  rw [strncmp, strncmpLoop_eq_zero, field_eq_take, field_eq_take, List.drop_zero, List.drop_zero]

/-- **`strncpy`** fills a field of `n` bytes that reads as its source does. -/
theorem field_strncpy (s : List UInt8) (n : ℕ) :
    (strncpy s n).length = n ∧ field n (strncpy s n) = field n s := by
  have hlen : (strncpy s n).length = n := by
    simp only [strncpy, List.length_append, List.length_replicate, List.length_take]
    omega
  refine ⟨hlen, ?_⟩
  rw [field, List.take_of_length_le (Nat.le_of_eq hlen), field_eq_take]
  set name := (cString s).take n with hname
  have hall : ∀ c ∈ name, (decide (c ≠ 0)) = true := by
    intro c hc
    exact decide_eq_true (ne_zero_of_mem_cString (List.mem_of_mem_take hc))
  have hcopy : strncpy s n = name ++ List.replicate (n - name.length) 0 := rfl
  rw [hcopy, cString, List.takeWhile_append_of_pos hall]
  have hpad : (List.replicate (n - name.length) (0 : UInt8)).takeWhile (· ≠ 0) = [] := by
    cases n - name.length with
    | zero => rfl
    | succ m => rfl
  rw [hpad, List.append_nil]

/-! ## The lookup -/

/-- The name of a directory entry. -/
def Dentry.name (d : Dentry) : List UInt8 := field fileNameLength d.fileName

namespace FsImage

variable {img : FsImage}

/-- The names in the directory are pairwise distinct. -/
def NamesDistinct (img : FsImage) : Prop :=
  ∀ i < img.dirNum, ∀ j < img.dirNum, (img.dirEntries i).name = (img.dirEntries j).name → i = j

/-- **The lookup** finds the first entry whose name is the string: the check of the length
and the comparison of 32 characters agree on where a name ends. -/
theorem readDentryByName_eq (img : FsImage) (s : List UInt8) :
    img.readDentryByName s = ((List.range img.dirNum).find? fun i =>
      (img.dirEntries i).name = cString s).map img.dirEntries := by
  rw [readDentryByName]
  by_cases hlen : strlen s > fileNameLength
  · rw [if_pos hlen]
    have hnone : ((List.range img.dirNum).find? fun i => (img.dirEntries i).name = cString s) =
      none := by
      rw [List.find?_eq_none]
      intro i _ heq
      have hname : (img.dirEntries i).name = cString s := of_decide_eq_true heq
      have hle := field_length_le fileNameLength (img.dirEntries i).fileName
      rw [← Dentry.name, hname] at hle
      exact absurd hlen (Nat.not_lt.mpr hle)
    rw [hnone]
    rfl
  · rw [if_neg hlen]
    congr 2
    funext i
    have hs : field fileNameLength s = cString s := by
      rw [field_eq_take]
      exact List.take_of_length_le (Nat.not_lt.mp hlen)
    rw [decide_eq_decide, strncmp_eq_zero, hs, Dentry.name]
    exact eq_comm

/-- With distinct names, the lookup finds the entry of that name. -/
theorem readDentryByName_eq_some (hd : img.NamesDistinct) {s : List UInt8} {d : Dentry} :
    img.readDentryByName s = some d ↔
      ∃ i < img.dirNum, (img.dirEntries i).name = cString s ∧ img.dirEntries i = d := by
  rw [readDentryByName_eq, Option.map_eq_some_iff]
  constructor
  · rintro ⟨i, hi, rfl⟩
    have hname := List.find?_some hi
    have hmem := List.mem_of_find?_eq_some hi
    exact ⟨i, List.mem_range.mp hmem, by simpa using hname, rfl⟩
  · rintro ⟨i, hi, hname, rfl⟩
    cases hf : (List.range img.dirNum).find? fun i => (img.dirEntries i).name = cString s with
    | none =>
      rw [List.find?_eq_none] at hf
      exact absurd (by simpa using hname) (hf i (List.mem_range.mpr hi))
    | some j =>
      have hj := List.find?_some hf
      have hmem := List.mem_range.mp (List.mem_of_find?_eq_some hf)
      have hij : j = i := hd j hmem i hi (by simpa [hname] using hj)
      exact ⟨i, hij ▸ rfl, rfl⟩

end FsImage

/-! ## The listing -/

namespace FileArray

variable {fa : FileArray} {img : FsImage}

/-- Repeated `read`s on one descriptor: for each, the value returned and the bytes written
to the buffer. -/
def readAll (img : FsImage) (fd : ℤ) : FileArray → List ℤ → List (ℤ × List UInt8)
  | _, [] => []
  | fa, n :: ns =>
    match fa.systemRead img fd false n with
    | .done ret bytes fa => (ret, bytes) :: readAll img fd fa ns
    | .terminal => []
    | .rtc => []

/-- What the `i`-th read of a directory returns: a name in a field of 32 bytes, and 0 behind
the last entry. -/
def entryRead (img : FsImage) (i : ℕ) : ℤ × List UInt8 :=
  if i < img.dirNum then (fileNameLength, strncpy (img.dirEntries i).fileName fileNameLength)
  else (0, [])

/-- **Reading a directory** from a position on. -/
theorem readAll_dir {fd : Fin 8} (ns : List ℤ) :
    ∀ {fa : FileArray}, (∀ n ∈ ns, (fileNameLength : ℤ) ≤ n) →
      (fa.openedFiles fd).inUse = true → (fa.openedFiles fd).fileOpTable = .dir →
      (fa.openedFiles fd).filePosition ≤ img.dirNum →
      readAll img fd fa ns = (List.range ns.length).map fun i =>
        entryRead img ((fa.openedFiles fd).filePosition + i) := by
  induction ns with
  | nil => intros; rfl
  | cons n ns ih =>
    intro fa hns hu ht hpos
    have hn : (fileNameLength : ℤ) ≤ n := hns n (List.mem_cons_self)
    have hnull : ¬ (n ≠ 0 ∧ false = true) := by simp
    have hread := Descriptors.systemRead_dir hnull hu ht img
    rw [dirRead] at hread
    rw [readAll, List.length_cons, List.range_succ_eq_map, List.map_cons, List.map_map]
    by_cases hend : img.dirNum ≤ (fa.openedFiles fd).filePosition
    · rw [if_pos hend] at hread
      simp only [hread]
      rw [ih (fun m hm => hns m (List.mem_cons_of_mem _ hm)) hu ht hpos]
      have hout : ∀ i, entryRead img ((fa.openedFiles fd).filePosition + i) = (0, []) := by
        intro i
        rw [entryRead, if_neg (by omega)]
      simp only [hout, Function.comp_def]
    · rw [if_neg hend] at hread
      have hsize : (if n > (fileNameLength : ℤ) then (fileNameLength : ℤ) else n) =
        fileNameLength := by
        split
        · rfl
        · omega
      rw [hsize] at hread
      simp only [hread]
      rw [ih (fun m hm => hns m (List.mem_cons_of_mem _ hm)) (by simpa using hu) (by simpa using ht)
        (by simp; omega)]
      congr 1
      · rw [Nat.add_zero, entryRead, if_pos (Nat.not_le.mp hend)]
        rfl
      · refine List.map_congr_left fun i _ => ?_
        simp only [set_self, Function.comp_apply]
        congr 1
        omega

/-- A directory that has just been opened is at its first entry. -/
theorem systemOpen_dir {rtc rtc' : RtcControl} {filename : List UInt8} {d : Dentry} {fd : ℤ}
    {fa' : FileArray} (hd : img.readDentryByName filename = some d) (ht : d.fileType = 1)
    (ho : fa.systemOpen rtc img filename = .ok (fd, fa', rtc')) (hfd : fd ≠ -1) :
    ∃ i : Fin 8, fd = i.val ∧ fa'.openedFiles i = ⟨.dir, 0, 0, true⟩ := by
  rw [systemOpen, hd] at ho
  by_cases hn : (maxOpenFile : ℤ) ≤ fa.currentOpenFileNum
  · rw [if_pos hn] at ho
    cases ho
    exact absurd rfl hfd
  rw [if_neg hn] at ho
  simp only [ht, dirOpen, openEntry] at ho
  cases hf : fa.getFreeFd with
  | none =>
    rw [hf] at ho
    cases ho
  | some i =>
    rw [hf] at ho
    cases ho
    exact ⟨i, rfl, set_self _⟩

end FileArray

/-! ## Listing and lookup -/

/-- **The listing of a directory and the lookup agree.**  A string is found when it is one of
the names, and then its entry is; the reads of a directory that has just been opened give
the names in order, and 0 behind the last; and a name that has been read is found, with the
entry that it has been read from. -/
theorem listing_lookup {img : FsImage} (hd : img.NamesDistinct) :
    (∀ s d, img.readDentryByName s = some d ↔
      ∃ i < img.dirNum, (img.dirEntries i).name = cString s ∧ img.dirEntries i = d) ∧
    (∀ (fa fa' : FileArray) (rtc rtc' : RtcControl) (filename : List UInt8) (d : Dentry) (fd : ℤ),
      img.readDentryByName filename = some d → d.fileType = 1 →
      fa.systemOpen rtc img filename = .ok (fd, fa', rtc') → fd ≠ -1 →
      ∀ ns : List ℤ, (∀ n ∈ ns, (fileNameLength : ℤ) ≤ n) →
        (FileArray.readAll img fd fa' ns).map (fun r => (r.1, field fileNameLength r.2)) =
          (List.range ns.length).map fun i =>
            if i < img.dirNum then ((fileNameLength : ℤ), (img.dirEntries i).name) else (0, [])) ∧
    ∀ i < img.dirNum, img.readDentryByName (img.dirEntries i).name = some (img.dirEntries i) := by
  refine ⟨fun s d => FsImage.readDentryByName_eq_some hd, ?_, ?_⟩
  · intro fa fa' rtc rtc' filename d fd hname ht ho hfd ns hns
    obtain ⟨i, rfl, hentry⟩ := FileArray.systemOpen_dir hname ht ho hfd
    rw [FileArray.readAll_dir ns hns (by rw [hentry]) (by rw [hentry])
      (by rw [hentry]; exact Nat.zero_le _), List.map_map]
    refine List.map_congr_left fun j _ => ?_
    simp only [Function.comp_apply, hentry, Nat.zero_add, FileArray.entryRead]
    split
    · rw [(field_strncpy _ _).2]
      rfl
    · rfl
  · intro i hi
    refine (FsImage.readDentryByName_eq_some hd).mpr ⟨i, hi, ?_, rfl⟩
    exact (cString_eq_self fun c hc => ne_zero_of_mem_cString hc).symm

/-- A disk with its root directory and a file whose name fills its field. -/
def longName : FsImage where
  dirNum := 2
  inodeNum := 1
  dataBlockNum := 0
  dirEntries := fun i => if i = 0 then { fileName := [46], fileType := 1, inodeNum := 0 }
    else { fileName := List.replicate 32 97, fileType := 2, inodeNum := 0 }
  inodes := fun _ => { lengthInBytes := 0, dataBlockNum := fun _ => 0 }
  dataBlocks := fun _ _ => 0

theorem listing_lookup_longName :
    longName.NamesDistinct ∧
      longName.readDentryByName (longName.dirEntries 1).name = some (longName.dirEntries 1) ∧
      (longName.dirEntries 1).name = List.replicate 32 97 := by
  have hd : longName.NamesDistinct := by
    unfold FsImage.NamesDistinct
    decide
  exact ⟨hd, (listing_lookup hd).2.2 1 (by decide), by decide⟩

/-! ## The lookup by index -/

namespace FsImage

variable {img : FsImage} {index i : ℕ}

/-- `i` is the first entry of the directory with the inode number `index`. -/
def FirstWithInode (img : FsImage) (index i : ℕ) : Prop :=
  i < img.dirNum ∧ (img.dirEntries i).inodeNum = index ∧
    ∀ j < i, (img.dirEntries j).inodeNum ≠ index

/-- The inode numbers tell where the entry `index` is, or that there is none. -/
def NumberedAt (img : FsImage) (index : ℕ) : Prop :=
  (index < img.dirNum →
    ∃ i, img.FirstWithInode index i ∧ img.dirEntries i = img.dirEntries index) ∧
  (img.dirNum ≤ index → ∀ i < img.dirNum, (img.dirEntries i).inodeNum ≠ index)

/-- **The lookup by index** compares inode numbers. -/
theorem readDentryByIndex_of_first (h : img.FirstWithInode index i) (dentry : Dentry) :
    img.readDentryByIndex index dentry = (0, img.dirEntries i) := by
  have hfind : ((List.range img.dirNum).find? fun j => index = (img.dirEntries j).inodeNum) =
      some i := by
    rw [List.find?_range_eq_some]
    refine ⟨decide_eq_true h.2.1.symm, List.mem_range.mpr h.1, fun j hj => ?_⟩
    have hne := h.2.2 j hj
    simpa using fun he => hne he.symm
  rw [readDentryByIndex, hfind]

theorem readDentryByIndex_of_none (h : ∀ i < img.dirNum, (img.dirEntries i).inodeNum ≠ index)
    (dentry : Dentry) : img.readDentryByIndex index dentry = (-1, dentry) := by
  have hfind : ((List.range img.dirNum).find? fun j => index = (img.dirEntries j).inodeNum) =
      none := by
    rw [List.find?_range_eq_none]
    intro j hj
    have hne := h j hj
    simpa using fun he => hne he.symm
  rw [readDentryByIndex, hfind]

theorem firstWithInode_or (img : FsImage) (index : ℕ) : (∃ i, img.FirstWithInode index i) ∨
    ∀ i < img.dirNum, (img.dirEntries i).inodeNum ≠ index := by
  by_cases h : ∃ i, i < img.dirNum ∧ (img.dirEntries i).inodeNum = index
  · left
    have hfirst := Nat.find_spec h
    refine ⟨Nat.find h, hfirst.1, hfirst.2, fun j hj he => ?_⟩
    exact Nat.find_min h hj ⟨hj.trans hfirst.1, he⟩
  · right
    intro i hi he
    exact h ⟨i, hi, he⟩

/-- When every entry carries its own position as inode number, the numbers tell where it is. -/
theorem numberedAt_iff (img : FsImage) :
    (∀ index, img.NumberedAt index) ↔ ∀ i < img.dirNum, (img.dirEntries i).inodeNum = i := by
  constructor
  · intro h i hi
    obtain ⟨j, hj, he⟩ := (h i).1 hi
    rw [← he, hj.2.1]
  · intro h index
    refine ⟨fun hlt => ⟨index, ⟨hlt, h index hlt, fun j hj => ?_⟩, rfl⟩, fun hle i hi => ?_⟩
    · rw [h j (hj.trans hlt)]
      exact hj.ne
    · rw [h i hi]
      omega

end FsImage

/-- **When `read_dentry_by_index` agrees with the order of the directory.**  It returns the entry
`index`, whose name is the one that the `index`-th read of the directory returns, exactly when
the inode numbers tell where that entry is. -/
theorem readDentryByIndex_iff (img : FsImage) (index : ℕ) :
    (∀ dentry, (img.readDentryByIndex index dentry =
        if index < img.dirNum then (0, img.dirEntries index) else (-1, dentry)) ∧
      ∀ (fa : FileArray) (fd : Fin 8) (ns : List ℤ), fa.openedFiles fd = ⟨.dir, 0, 0, true⟩ →
        (∀ n ∈ ns, (fileNameLength : ℤ) ≤ n) → index < ns.length → index < img.dirNum →
          ((FileArray.readAll img fd fa ns)[index]?.map fun r => field fileNameLength r.2) =
            some (img.readDentryByIndex index dentry).2.name) ↔
      img.NumberedAt index := by
  constructor
  · intro h
    rcases img.firstWithInode_or index with ⟨i, hfirst⟩ | hnone
    · have hret := fun dentry => FsImage.readDentryByIndex_of_first hfirst dentry
      constructor
      · intro hlt
        have hentry := (h (img.dirEntries index)).1
        rw [hret, if_pos hlt] at hentry
        exact ⟨i, hfirst, (Prod.mk.inj hentry).2⟩
      · intro hle
        have hentry := (h (img.dirEntries i)).1
        rw [hret, if_neg hle.not_gt] at hentry
        exact absurd (Prod.mk.inj hentry).1 (by decide)
    · refine ⟨fun hlt => ?_, fun _ => hnone⟩
      have hentry := (h (img.dirEntries index)).1
      rw [FsImage.readDentryByIndex_of_none hnone, if_pos hlt] at hentry
      exact absurd (Prod.mk.inj hentry).1 (by decide)
  · intro h dentry
    have hret : img.readDentryByIndex index dentry =
        if index < img.dirNum then (0, img.dirEntries index) else (-1, dentry) := by
      by_cases hlt : index < img.dirNum
      · obtain ⟨i, hfirst, he⟩ := h.1 hlt
        rw [if_pos hlt, FsImage.readDentryByIndex_of_first hfirst, he]
      · rw [if_neg hlt, FsImage.readDentryByIndex_of_none (h.2 (Nat.not_lt.mp hlt))]
    refine ⟨hret, fun fa fd ns hentry hns hlen hlt => ?_⟩
    rw [hret, if_pos hlt, FileArray.readAll_dir ns hns (by rw [hentry]) (by rw [hentry])
      (by rw [hentry]; exact Nat.zero_le _)]
    rw [List.getElem?_map, List.getElem?_range hlen, hentry]
    simp only [Option.map_some, Nat.zero_add, FileArray.entryRead, if_pos hlt]
    rw [(field_strncpy _ _).2]
    rfl

/-- **The second entry of a directory is not found** when its inode number is 0. -/
theorem readDentryByIndex_longName : 1 < longName.dirNum ∧
    longName.readDentryByIndex 1 (longName.dirEntries 0) = (-1, longName.dirEntries 0) ∧
    longName.dirEntries 1 ≠ longName.dirEntries 0 := by decide

end AuroraOS
