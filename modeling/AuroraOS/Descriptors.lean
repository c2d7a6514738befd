/-
# The descriptor table

The file array of one task under any sequence of calls on it, with any images and any
arguments.  Two layers keep it: `system_open` and `system_close` count, and the `open`
operations of the files mark the entries.

What holds of every table is `Counted`, with the operation tables that an `open` has
put there; what a call does to the table is `Contract`.  The one call that fails and
moves the table is a read of a directory with `nbytes` -1.
-/
import AuroraOS.FileRead

namespace AuroraOS

open Machine

/-! ## The machine -/

/-- The file array of a task, and the value that the last call has returned. -/
structure Descriptors where
  fa : FileArray
  rtc : RtcControl
  ret : ℤ

/-- A call on the file array.  A read of the terminal or of the RTC sleeps in its driver,
which never looks at the array, and returns the value `device`. -/
inductive FileCall where
  | initFileArray
  | open (img : FsImage) (filename : List UInt8)
  | close (fd : ℤ)
  | read (img : FsImage) (fd : ℤ) (bufNull : Bool) (nbytes device : ℤ)
  | write (fd : ℤ) (bufNull : Bool) (word : BitVec 32) (nbytes : ℤ)

namespace Descriptors

/-- One call. -/
def step (s : Descriptors) : FileCall → Except Fault Descriptors
  | .initFileArray => .ok { s with fa := s.fa.init, ret := 0 }
  | .open img filename => do
    let (fd, fa, rtc) ← s.fa.systemOpen s.rtc img filename
    .ok { fa := fa, rtc := rtc, ret := fd }
  | .close fd => .ok { s with fa := (s.fa.systemClose fd).2, ret := (s.fa.systemClose fd).1 }
  | .read img fd bufNull nbytes device =>
    match s.fa.systemRead img fd bufNull nbytes with
    | .done ret _ fa => .ok { s with fa := fa, ret := ret }
    | .terminal => .ok { s with ret := device }
    | .rtc => .ok { s with ret := device }
  | .write fd bufNull word nbytes => do
    let (ret, rtc) ← s.fa.systemWrite s.rtc fd bufNull word nbytes
    .ok { s with rtc := rtc, ret := ret }

/-- The file array of a new task. -/
def start (fa : FileArray) (rtc : RtcControl) : Descriptors :=
  { fa := fa.init, rtc := rtc, ret := 0 }

end Descriptors

/-! ## The invariant -/

/-- The operation table of a file type, if there is one. -/
def OpTable.ofType : ℕ → Option OpTable
  | 0 => some .rtc
  | 1 => some .dir
  | 2 => some .file
  | _ => none

namespace FileArray

variable {fa : FileArray}

/-- **The invariant of the table**: the count is right, descriptors 0 and 1 are the
terminal, and the operations of every other descriptor in use are those of a file. -/
structure Table (fa : FileArray) : Prop extends fa.Counted where
  opened : ∀ fd : Fin 8, fd ≠ 0 → fd ≠ 1 → (fa.openedFiles fd).inUse →
    ∃ type, OpTable.ofType type = some (fa.openedFiles fd).fileOpTable

theorem table_init (fa : FileArray) : fa.init.Table where
  toCounted := counted_init fa
  opened := by
    intro fd h0 h1 hu
    simp [init, h0, h1] at hu

theorem Table.moved (h : fa.Table) {fd : Fin 8} {position : ℕ}
    (hu : (fa.openedFiles fd).inUse = true) :
    (fa.set fd { fa.openedFiles fd with filePosition := position }).Table where
  toCounted := counted_read h.toCounted hu
  opened := by
    intro i h0 h1 hi
    by_cases hif : i = fd
    · subst hif
      rw [set_self] at hi ⊢
      exact h.opened i h0 h1 hi
    · rw [set_of_ne _ hif] at hi ⊢
      exact h.opened i h0 h1 hi

theorem Table.released (h : fa.Table) {fd : Fin 8} (hu : (fa.openedFiles fd).inUse = true)
    (h0 : fd ≠ 0) (h1 : fd ≠ 1) :
    Table { fa.set fd { fa.openedFiles fd with inUse := false } with
      currentOpenFileNum := fa.currentOpenFileNum - 1 } where
  toCounted := counted_close h.toCounted hu rfl h0 h1
  opened := by
    intro i hi0 hi1 hi
    show ∃ type, OpTable.ofType type = some ((fa.set fd _).openedFiles i).fileOpTable
    replace hi : ((fa.set fd { fa.openedFiles fd with inUse := false }).openedFiles i).inUse := hi
    by_cases hif : i = fd
    · subst hif
      simp at hi
    · rw [set_of_ne _ hif] at hi ⊢
      exact h.opened i hi0 hi1 hi

theorem Table.taken (h : fa.Table) {fd : Fin 8} {type inode : ℕ} {table : OpTable}
    (ht : OpTable.ofType type = some table) (hu : (fa.openedFiles fd).inUse = false)
    (h0 : fd ≠ 0) (h1 : fd ≠ 1) :
    (fa.set fd ⟨table, inode, 0, true⟩).countUp.Table where
  toCounted := counted_open h.toCounted hu rfl h0 h1
  opened := by
    intro i hi0 hi1 hi
    show ∃ type, OpTable.ofType type = some ((fa.set fd _).openedFiles i).fileOpTable
    replace hi : ((fa.set fd ⟨table, inode, 0, true⟩).openedFiles i).inUse := hi
    by_cases hif : i = fd
    · subst hif
      rw [set_self]
      exact ⟨type, ht⟩
    · rw [set_of_ne _ hif] at hi ⊢
      exact h.opened i hi0 hi1 hi

/-! ## Opening -/

/-- `fd` is the least descriptor from 2 on that is not in use. -/
def LeastFree (fa : FileArray) (fd : Fin 8) : Prop :=
  2 ≤ fd.val ∧ (fa.openedFiles fd).inUse = false ∧
    ∀ i : Fin 8, 2 ≤ i.val → i < fd → (fa.openedFiles i).inUse = true

/-- `get_free_fd` searches from 2 on. -/
theorem getFreeFd_least {fd : Fin 8} (h : fa.getFreeFd = some fd) : fa.LeastFree fd := by
  obtain ⟨hu, as, bs, hsplit, has⟩ := List.find?_eq_some_iff_append.mp h
  have hsorted : ([2, 3, 4, 5, 6, 7] : List (Fin 8)).Pairwise (· < ·) := by decide
  have hmem : ∀ i : Fin 8, i ∈ ([2, 3, 4, 5, 6, 7] : List (Fin 8)) ↔ 2 ≤ i.val := by decide
  refine ⟨(hmem fd).mp (by simp [hsplit]), by simpa using hu, ?_⟩
  intro i hi hlt
  rw [hsplit, List.pairwise_append, List.pairwise_cons] at hsorted
  have hin := (hmem i).mpr hi
  rw [hsplit, List.mem_append, List.mem_cons] at hin
  rcases hin with hin | rfl | hin
  · simpa using has i hin
  · exact absurd hlt (lt_irrefl i)
  · exact absurd hlt (lt_asymm (hsorted.2.1.1 i hin))

/-- The count reaches `MAX_OPEN_FILE` when all descriptors are in use. -/
theorem count_eq_iff (h : fa.Counted) :
    (maxOpenFile : ℤ) ≤ fa.currentOpenFileNum ↔ ∀ fd, (fa.openedFiles fd).inUse = true := by
  rw [h.count, Nat.cast_le]
  have hcard : (Finset.univ : Finset (Fin 8)).card = maxOpenFile := rfl
  constructor
  · intro hle fd
    have huniv : fa.used = Finset.univ :=
      Finset.eq_univ_of_card _ (le_antisymm (Finset.card_le_univ _) hle)
    exact mem_used.mp (huniv ▸ Finset.mem_univ fd)
  · intro hall
    have huniv : fa.used = Finset.univ := by
      ext fd
      simp [mem_used, hall fd]
    rw [huniv, hcard]

/-- The name leads to an entry of a type that can be opened. -/
def Opens (img : FsImage) (filename : List UInt8) : Prop :=
  ∃ dentry, img.readDentryByName filename = some dentry ∧ (OpTable.ofType dentry.fileType).isSome

/-- **`system_open` when it can open the file**: it takes the least free descriptor. -/
theorem systemOpen_takes (h : fa.Counted) (rtc : RtcControl) {img : FsImage}
    {filename : List UInt8} (hn : ¬ (maxOpenFile : ℤ) ≤ fa.currentOpenFileNum)
    (ho : Opens img filename) :
    ∃ rtc' fd dentry table inode, fa.LeastFree fd ∧
      img.readDentryByName filename = some dentry ∧ OpTable.ofType dentry.fileType = some table ∧
      fa.systemOpen rtc img filename =
        .ok (fd.val, (fa.set fd ⟨table, inode, 0, true⟩).countUp, rtc') := by
  obtain ⟨fd, hfd, -, -, -⟩ := getFreeFd_spec h (Int.not_le.mp hn)
  obtain ⟨dentry, hd, htype⟩ := ho
  have hopen : ∀ table inode, fa.openEntry table inode =
      .ok (fd.val, fa.set fd ⟨table, inode, 0, true⟩) := by
    intro table inode
    rw [openEntry, hfd]
  rw [systemOpen, if_neg hn, hd]
  rcases ht : dentry.fileType with _ | _ | _ | n
  · refine ⟨systemRtcOpen rtc, fd, dentry, .rtc, 0, getFreeFd_least hfd, rfl, ht ▸ rfl, ?_⟩
    simp only [ht, localRtcOpen, hopen, ok_bind]
  · refine ⟨rtc, fd, dentry, .dir, 0, getFreeFd_least hfd, rfl, ht ▸ rfl, ?_⟩
    simp only [ht, dirOpen, hopen, ok_bind]
  · refine ⟨rtc, fd, dentry, .file, dentry.inodeNum, getFreeFd_least hfd, rfl, ht ▸ rfl, ?_⟩
    simp only [ht, fileOpen, hd, hopen, ok_bind]
  · rw [ht] at htype
    cases htype

/-- **`system_open` when it cannot**: it returns -1 and leaves everything alone. -/
theorem systemOpen_refuses (rtc : RtcControl) {img : FsImage} {filename : List UInt8}
    (h : (maxOpenFile : ℤ) ≤ fa.currentOpenFileNum ∨ ¬ Opens img filename) :
    fa.systemOpen rtc img filename = .ok (-1, fa, rtc) := by
  rw [systemOpen]
  by_cases hn : (maxOpenFile : ℤ) ≤ fa.currentOpenFileNum
  · rw [if_pos hn]
  rw [if_neg hn]
  have ho := h.resolve_left hn
  cases hd : img.readDentryByName filename with
  | none => rfl
  | some dentry =>
    have hnone : OpTable.ofType dentry.fileType = none := by
      rw [← Option.not_isSome_iff_eq_none]
      exact fun hs => ho ⟨dentry, hd, hs⟩
    match ht : dentry.fileType with
    | 0 => rw [ht] at hnone; cases hnone
    | 1 => rw [ht] at hnone; cases hnone
    | 2 => rw [ht] at hnone; cases hnone
    | n + 3 => simp only [ht]

end FileArray

/-! ## What a call does -/

namespace Descriptors

variable {s s' : Descriptors}

/-- What `system_open` does: it fails when it should, and otherwise takes the least free
descriptor for the type of the file and leaves the others alone. -/
structure OpenContract (s : Descriptors) (img : FsImage) (filename : List UInt8)
    (s' : Descriptors) : Prop where
  fails : s'.ret = -1 ↔
    (∀ fd, (s.fa.openedFiles fd).inUse = true) ∨ ¬ FileArray.Opens img filename
  takes : s'.ret ≠ -1 → ∃ fd dentry table inode, s'.ret = (fd : Fin 8).val ∧ s.fa.LeastFree fd ∧
    img.readDentryByName filename = some dentry ∧ OpTable.ofType dentry.fileType = some table ∧
    s'.fa = (s.fa.set fd ⟨table, inode, 0, true⟩).countUp

/-- What `system_close` does: it succeeds on a descriptor in use from 2 on, and frees
this one. -/
structure CloseContract (s : Descriptors) (fd : ℤ) (s' : Descriptors) : Prop where
  succeeds : s'.ret = 0 ↔ ∃ i : Fin 8, fd = i.val ∧ 2 ≤ i.val ∧ (s.fa.openedFiles i).inUse = true
  fails : s'.ret ≠ 0 → s'.ret = -1
  frees : s'.ret = 0 → ∃ i : Fin 8, fd = i.val ∧
    s'.fa = { s.fa.set i { s.fa.openedFiles i with inUse := false } with
      currentOpenFileNum := s.fa.currentOpenFileNum - 1 }

/-- What a call does to the table: the contract of its own, no descriptor changes its
state in a read or a write, and a call that fails leaves the table unchanged. -/
structure Contract (s : Descriptors) (c : FileCall) (s' : Descriptors) : Prop where
  opens : ∀ img filename, c = .open img filename → OpenContract s img filename s'
  closes : ∀ fd, c = .close fd → CloseContract s fd s'
  reads : (∃ img fd bufNull nbytes device, c = .read img fd bufNull nbytes device) ∨
      (∃ fd bufNull word nbytes, c = .write fd bufNull word nbytes) →
    s'.fa.currentOpenFileNum = s.fa.currentOpenFileNum ∧
      ∀ i, (s'.fa.openedFiles i).inUse = (s.fa.openedFiles i).inUse ∧
        (s'.fa.openedFiles i).fileOpTable = (s.fa.openedFiles i).fileOpTable
  unchanged : s'.ret = -1 → s'.fa = s.fa

/-- The call reads a directory that is not at its end with `nbytes` -1: `dir_read` returns
`nbytes`, and has moved the position. -/
def DirReadMinusOne (s : Descriptors) : FileCall → Prop
  | .read img fd bufNull nbytes _ => nbytes = -1 ∧ bufNull = false ∧
      ∃ i, s.fa.usable fd = some i ∧ (s.fa.openedFiles i).fileOpTable = .dir ∧
        (s.fa.openedFiles i).filePosition < img.dirNum
  | _ => False

/-! ## Steps -/

theorem step_open (h : s.fa.Table) (img : FsImage) (filename : List UInt8) :
    ∃ s', s.step (.open img filename) = .ok s' ∧ s'.fa.Table ∧
      Contract s (.open img filename) s' := by
  by_cases hn : (maxOpenFile : ℤ) ≤ s.fa.currentOpenFileNum ∨ ¬ FileArray.Opens img filename
  · refine ⟨{ s with ret := -1 }, ?_, h, ?_, by rintro fd ⟨⟩, ?_, fun _ => rfl⟩
    · simp only [step, FileArray.systemOpen_refuses s.rtc hn, ok_bind]
    · rintro _ _ ⟨⟩
      refine ⟨iff_of_true rfl ?_, fun hr => absurd rfl hr⟩
      rwa [FileArray.count_eq_iff h.toCounted] at hn
    · exact fun _ => ⟨rfl, fun i => ⟨rfl, rfl⟩⟩
  · obtain ⟨hcount, hopens⟩ := not_or.mp hn
    obtain ⟨rtc', fd, dentry, table, inode, hleast, hd, ht, hopen⟩ :=
      FileArray.systemOpen_takes h.toCounted s.rtc hcount (not_not.mp hopens)
    obtain ⟨htwo, hu, -⟩ := id hleast
    have hret : ((fd.val : ℕ) : ℤ) ≠ -1 := by omega
    have h0 : fd ≠ 0 := by rintro rfl; exact absurd htwo (by decide)
    have h1 : fd ≠ 1 := by rintro rfl; exact absurd htwo (by decide)
    have hstep : s.step (.open img filename) = .ok
        { fa := (s.fa.set fd ⟨table, inode, 0, true⟩).countUp, rtc := rtc', ret := fd.val } := by
      simp only [step, hopen, ok_bind]
    refine ⟨_, hstep, h.taken ht hu h0 h1, ?_, by rintro fd ⟨⟩, ?_, fun hr => absurd hr hret⟩
    · rintro _ _ ⟨⟩
      refine ⟨iff_of_false hret ?_, fun _ => ⟨fd, dentry, table, inode, rfl, hleast, hd, ht, rfl⟩⟩
      rwa [FileArray.count_eq_iff h.toCounted] at hn
    · rintro (⟨_, _, _, _, _, ⟨⟩⟩ | ⟨_, _, _, _, ⟨⟩⟩)

theorem step_close (h : s.fa.Table) (fd : ℤ) :
    ∃ s', s.step (.close fd) = .ok s' ∧ s'.fa.Table ∧ Contract s (.close fd) s' := by
  have hnot : ∀ i : Fin 8, 2 ≤ i.val → ((i.val : ℕ) : ℤ) ≠ 0 ∧ ((i.val : ℕ) : ℤ) ≠ 1 := by omega
  by_cases hc : ∃ i : Fin 8, fd = i.val ∧ 2 ≤ i.val ∧ (s.fa.openedFiles i).inUse = true
  · obtain ⟨i, rfl, htwo, hu⟩ := hc
    obtain ⟨hz, ho⟩ := hnot i htwo
    have hclose : s.fa.systemClose i.val =
      (0, { s.fa.set i { s.fa.openedFiles i with inUse := false }
        with currentOpenFileNum := s.fa.currentOpenFileNum - 1 }) := by
      rw [FileArray.systemClose, if_neg (not_or.mpr ⟨hz, ho⟩),
        FileArray.usable_eq_some.mpr ⟨rfl, hu⟩]
    have h0 : i ≠ 0 := by rintro rfl; exact hz rfl
    have h1 : i ≠ 1 := by rintro rfl; exact ho rfl
    refine ⟨_, rfl, ?_, by rintro _ _ ⟨⟩, ?_, ?_, ?_⟩
    · rw [hclose]
      exact h.released hu h0 h1
    · rintro _ ⟨⟩
      rw [hclose]
      exact ⟨iff_of_true rfl ⟨i, rfl, htwo, hu⟩, fun hr => absurd rfl hr, fun _ => ⟨i, rfl, rfl⟩⟩
    · rintro (⟨_, _, _, _, _, ⟨⟩⟩ | ⟨_, _, _, _, ⟨⟩⟩)
    · rw [hclose]
      rintro ⟨⟩
  · have hclose : s.fa.systemClose fd = (-1, s.fa) := by
      rw [FileArray.systemClose]
      by_cases h01 : fd = 0 ∨ fd = 1
      · rw [if_pos h01]
      rw [if_neg h01]
      cases hfd : s.fa.usable fd with
      | none => rfl
      | some i =>
        obtain ⟨rfl, hu⟩ := FileArray.usable_eq_some.mp hfd
        exact absurd ⟨i, rfl, by omega, hu⟩ hc
    refine ⟨_, rfl, ?_, by rintro _ _ ⟨⟩, ?_, ?_, ?_⟩
    · rw [hclose]
      exact h
    · rintro _ ⟨⟩
      rw [hclose]
      exact ⟨iff_of_false (by rintro ⟨⟩) hc, fun _ => rfl, by rintro ⟨⟩⟩
    · rintro (⟨_, _, _, _, _, ⟨⟩⟩ | ⟨_, _, _, _, ⟨⟩⟩)
    · rw [hclose]
      exact fun _ => rfl

/-- A call that leaves all but the positions alone meets its contract when its failure
leaves these alone, too. -/
theorem contract_of_states {c : FileCall} (hopen : ∀ img filename, c ≠ .open img filename)
    (hclose : ∀ fd, c ≠ .close fd)
    (hcount : s'.fa.currentOpenFileNum = s.fa.currentOpenFileNum)
    (hstate : ∀ i, (s'.fa.openedFiles i).inUse = (s.fa.openedFiles i).inUse ∧
      (s'.fa.openedFiles i).fileOpTable = (s.fa.openedFiles i).fileOpTable) :
    Contract s c s' ↔ (s'.ret = -1 → s'.fa = s.fa) where
  mp h := h.unchanged
  mpr h := {
    opens := fun img filename hc => absurd hc (hopen img filename)
    closes := fun fd hc => absurd hc (hclose fd)
    reads := fun _ => ⟨hcount, hstate⟩
    unchanged := h }

section Usable

variable {fa : FileArray} {i : Fin 8} {bufNull : Bool} {nbytes : ℤ}

theorem systemRead_file (hnull : ¬ (nbytes ≠ 0 ∧ bufNull = true))
    (hu : (fa.openedFiles i).inUse = true) (ht : (fa.openedFiles i).fileOpTable = .file)
    (img : FsImage) :
    fa.systemRead img i bufNull nbytes = fa.fileRead img i nbytes := by
  rw [FileArray.systemRead, if_neg hnull, FileArray.usable_eq_some.mpr ⟨rfl, hu⟩]
  simp only [ht]

theorem systemRead_dir (hnull : ¬ (nbytes ≠ 0 ∧ bufNull = true))
    (hu : (fa.openedFiles i).inUse = true) (ht : (fa.openedFiles i).fileOpTable = .dir)
    (img : FsImage) :
    fa.systemRead img i bufNull nbytes = fa.dirRead img i nbytes := by
  rw [FileArray.systemRead, if_neg hnull, FileArray.usable_eq_some.mpr ⟨rfl, hu⟩]
  simp only [ht]

end Usable

/-- A read that returns -1 or sleeps leaves the array alone. -/
theorem read_kept {c : FileCall} (hopen : ∀ img filename, c ≠ .open img filename)
    (hclose : ∀ fd, c ≠ .close fd) (hno : ¬ DirReadMinusOne s c) (ret : ℤ) :
    Contract s c { s with ret := ret } ↔ ¬ DirReadMinusOne s c := by
  refine iff_of_true ((contract_of_states hopen hclose ?_ ?_).mpr fun _ => rfl) hno
  · rfl
  · exact fun i => ⟨rfl, rfl⟩

/-- A read that moves a position must not fail. -/
theorem read_moved (h : s.fa.Table) {c : FileCall} (hopen : ∀ img filename, c ≠ .open img filename)
    (hclose : ∀ fd, c ≠ .close fd) {i : Fin 8} (hu : (s.fa.openedFiles i).inUse = true)
    (position : ℕ) (ret : ℤ) :
    (s.fa.set i { s.fa.openedFiles i with filePosition := position }).Table ∧
      (Contract s c { s with
          fa := s.fa.set i { s.fa.openedFiles i with filePosition := position }
          ret := ret } ↔
        (ret = -1 → position = (s.fa.openedFiles i).filePosition)) := by
  refine ⟨h.moved hu, ?_⟩
  refine (contract_of_states hopen hclose ?_ ?_).trans ?_
  · rfl
  · intro j
    by_cases hji : j = i
    · subst hji
      simp
    · simp [FileArray.set_of_ne _ hji]
  · refine imp_congr_right fun _ => ⟨fun heq => ?_, ?_⟩
    · have hself := congrArg (fun fa => (fa.openedFiles i).filePosition) heq
      simpa using hself
    · rintro rfl
      simp [FileArray.set]

theorem step_read (h : s.fa.Table) (img : FsImage) (fd : ℤ) (bufNull : Bool) (nbytes device : ℤ) :
    ∃ s', s.step (.read img fd bufNull nbytes device) = .ok s' ∧ s'.fa.Table ∧
      (Contract s (.read img fd bufNull nbytes device) s' ↔
        ¬ DirReadMinusOne s (.read img fd bufNull nbytes device)) := by
  obtain ⟨c, hc⟩ : ∃ c, c = FileCall.read img fd bufNull nbytes device := ⟨_, rfl⟩
  rw [← hc]
  have hopen : ∀ img filename, c ≠ .open img filename := by
    rintro img' filename rfl
    cases hc
  have hclose : ∀ fd, c ≠ .close fd := by
    rintro fd' rfl
    cases hc
  have hdone : ∀ ret bytes fa, s.fa.systemRead img fd bufNull nbytes = .done ret bytes fa →
      s.step c = .ok { s with fa := fa, ret := ret } := by
    intro ret bytes fa hr
    simp only [hc, step, hr]
  by_cases hnull : nbytes ≠ 0 ∧ bufNull = true
  · refine ⟨_, hdone (-1) [] s.fa ?_, h, read_kept hopen hclose ?_ (-1)⟩
    · rw [FileArray.systemRead, if_pos hnull]
    · rw [hc]
      rintro ⟨-, hb, -⟩
      exact absurd (hb.symm.trans hnull.2) (by decide)
  cases hfd : s.fa.usable fd with
  | none =>
    refine ⟨_, hdone (-1) [] s.fa ?_, h, read_kept hopen hclose ?_ (-1)⟩
    · rw [FileArray.systemRead, if_neg hnull, hfd]
    · rw [hc]
      rintro ⟨-, -, i, hi, -⟩
      rw [hfd] at hi
      cases hi
  | some i =>
    obtain ⟨rfl, hu⟩ := FileArray.usable_eq_some.mp hfd
    have hother : (s.fa.openedFiles i).fileOpTable ≠ .dir → ¬ DirReadMinusOne s c := by
      rw [hc]
      rintro hne ⟨-, -, j, hj, hdir, -⟩
      cases hfd.symm.trans hj
      exact hne hdir
    have hdevice : s.step c = .ok { s with ret := device } → ¬ DirReadMinusOne s c →
        ∃ s', s.step c = .ok s' ∧ s'.fa.Table ∧ (Contract s c s' ↔ ¬ DirReadMinusOne s c) :=
      fun hstep hno => ⟨_, hstep, h, read_kept hopen hclose hno device⟩
    cases ht : (s.fa.openedFiles i).fileOpTable with
    | terminal =>
      have hno := hother (by rw [ht]; decide)
      by_cases hi0 : ((i : ℕ) : ℤ) ≠ 0
      · refine ⟨_, hdone (-1) [] s.fa ?_, h, read_kept hopen hclose hno (-1)⟩
        simp only [FileArray.systemRead, if_neg hnull, hfd, ht, if_pos hi0]
      · refine hdevice ?_ hno
        simp only [hc, step, FileArray.systemRead, if_neg hnull, hfd, ht, if_neg hi0]
    | rtc =>
      refine hdevice ?_ (hother (by rw [ht]; decide))
      simp only [hc, step, FileArray.systemRead, if_neg hnull, hfd, ht]
    | file =>
      have hno := hother (by rw [ht]; decide)
      have hread := systemRead_file hnull hu ht img
      rw [FileArray.fileRead] at hread
      cases hdata : img.readData (s.fa.openedFiles i).inode (s.fa.openedFiles i).filePosition
          (nbytes % 2 ^ 32).toNat with
      | none =>
        simp only [hdata] at hread
        exact ⟨_, hdone _ _ _ hread, h, read_kept hopen hclose hno (-1)⟩
      | some bytes =>
        simp only [hdata] at hread
        by_cases hret : (BitVec.ofNat 32 bytes.length).toInt = -1
        · rw [if_pos hret] at hread
          exact ⟨_, hdone _ _ _ hread, h, read_kept hopen hclose hno (-1)⟩
        · rw [if_neg hret] at hread
          obtain ⟨htable, hcontract⟩ := read_moved h hopen hclose hu
            (((s.fa.openedFiles i).filePosition + bytes.length) % 2 ^ 32)
            (BitVec.ofNat 32 bytes.length).toInt
          exact ⟨_, hdone _ _ _ hread, htable,
            hcontract.trans (iff_of_true (fun hr => absurd hr hret) hno)⟩
    | dir =>
      have hread := systemRead_dir hnull hu ht img
      rw [FileArray.dirRead] at hread
      by_cases hend : img.dirNum ≤ (s.fa.openedFiles i).filePosition
      · rw [if_pos hend] at hread
        refine ⟨_, hdone _ _ _ hread, h, read_kept hopen hclose ?_ 0⟩
        rw [hc]
        rintro ⟨-, -, j, hj, -, hlt⟩
        cases hfd.symm.trans hj
        omega
      · rw [if_neg hend] at hread
        obtain ⟨htable, hcontract⟩ := read_moved h hopen hclose hu
          ((s.fa.openedFiles i).filePosition + 1)
          (if nbytes > (fileNameLength : ℤ) then (fileNameLength : ℤ) else nbytes)
        refine ⟨_, hdone _ _ _ hread, htable, hcontract.trans ?_⟩
        have hret : (if nbytes > (fileNameLength : ℤ) then (fileNameLength : ℤ) else nbytes) = -1 ↔
            nbytes = -1 := by
          simp only [fileNameLength]
          split <;> omega
        rw [hret, hc]
        constructor
        · rintro hun ⟨hneg, -, -⟩
          have := hun hneg
          omega
        · intro hno hneg
          refine absurd ⟨hneg, ?_, i, hfd, ht, Nat.not_le.mp hend⟩ hno
          by_contra hb
          exact hnull ⟨by omega, by simpa using hb⟩

theorem step_write (h : s.fa.Table) {fd : ℤ} {bufNull : Bool} {word : BitVec 32} {nbytes : ℤ}
    (hs : s.step (.write fd bufNull word nbytes) = .ok s') :
    s'.fa.Table ∧ Contract s (.write fd bufNull word nbytes) s' := by
  obtain ⟨⟨ret, rtc⟩, -, hs⟩ := bind_eq_ok.mp hs
  cases hs
  refine ⟨h, (contract_of_states ?_ ?_ ?_ ?_).mpr fun _ => rfl⟩
  · rintro _ _ ⟨⟩
  · rintro _ ⟨⟩
  · rfl
  · exact fun i => ⟨rfl, rfl⟩

/-- **Every call** keeps the invariant, and meets its contract unless it is the read of a
directory with `nbytes` -1. -/
theorem step_contract (h : s.fa.Table) {c : FileCall} (hs : s.step c = .ok s') :
    s'.fa.Table ∧ (Contract s c s' ↔ ¬ DirReadMinusOne s c) := by
  cases c with
  | initFileArray =>
    cases hs
    refine ⟨FileArray.table_init s.fa, iff_of_true ⟨?_, ?_, ?_, ?_⟩ id⟩
    · rintro _ _ ⟨⟩
    · rintro _ ⟨⟩
    · rintro (⟨_, _, _, _, _, ⟨⟩⟩ | ⟨_, _, _, _, ⟨⟩⟩)
    · rintro ⟨⟩
  | «open» img filename =>
    obtain ⟨t, ht, htable, hc⟩ := step_open h img filename
    cases Except.ok.inj (hs.symm.trans ht)
    exact ⟨htable, iff_of_true hc id⟩
  | close fd =>
    obtain ⟨t, ht, htable, hc⟩ := step_close h fd
    cases Except.ok.inj (hs.symm.trans ht)
    exact ⟨htable, iff_of_true hc id⟩
  | read img fd bufNull nbytes device =>
    obtain ⟨t, ht, htable, hc⟩ := step_read h img fd bufNull nbytes device
    cases Except.ok.inj (hs.symm.trans ht)
    exact ⟨htable, hc⟩
  | write fd bufNull word nbytes =>
    obtain ⟨htable, hc⟩ := step_write h hs
    exact ⟨htable, iff_of_true hc id⟩

/-- No call takes a descriptor behind the end of the array: `get_free_fd` is called only
when the count says that there is a free one. -/
theorem step_inBounds (h : s.fa.Table) (c : FileCall) : s.step c ≠ .error .fileArrayBounds := by
  intro he
  cases c with
  | initFileArray => cases he
  | «open» img filename =>
    obtain ⟨t, ht, -⟩ := step_open h img filename
    exact absurd (ht.symm.trans he) (by rintro ⟨⟩)
  | close fd => cases he
  | read img fd bufNull nbytes device =>
    obtain ⟨t, ht, -⟩ := step_read h img fd bufNull nbytes device
    exact absurd (ht.symm.trans he) (by rintro ⟨⟩)
  | write fd bufNull word nbytes =>
    have hno : ∀ d, s.fa.systemWrite s.rtc fd bufNull word nbytes = .error d →
        d = .divideByZero := by
      intro d hd
      simp only [FileArray.systemWrite, systemRtcWrite, rtcRefill] at hd
      repeat' split at hd
      all_goals cases hd
      rfl
    cases hw : s.fa.systemWrite s.rtc fd bufNull word nbytes with
    | ok r =>
      rw [step, hw] at he
      cases he
    | error d =>
      rw [step, hw, error_bind, hno d hw] at he
      cases he

/-- A disk with a root directory and nothing else. -/
def rootOnly : FsImage where
  dirNum := 1
  inodeNum := 0
  dataBlockNum := 0
  dirEntries := fun _ => { fileName := [46], fileType := 1, inodeNum := 0 }
  inodes := fun _ => { lengthInBytes := 0, dataBlockNum := fun _ => 0 }
  dataBlocks := fun _ _ => 0

end Descriptors

end AuroraOS
