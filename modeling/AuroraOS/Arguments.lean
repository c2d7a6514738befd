/-
# The arguments of a task

What becomes of the arguments that `system_execute` has stored, while other tasks are started
and stopped: `system_getargs` reads them through the pointer in `task_t`, and the memory they
lie in is written by nobody else as long as the strings of the other tasks fit.

The memory of the kernel changes when a task is started, when a task is stopped, when a task
runs in the kernel (its `task_t` and its stack), and everywhere else at any time.
-/
import AuroraOS.KernelStrings
import AuroraOS.UserBuffers

namespace AuroraOS

open Memory

/-! ## Reading them back -/

/-- `system_getargs` of the task at `task`, in memory: the memory and the result. -/
def systemGetargsAt (task buf : BitVec 32) (nbytes : ℤ) (m : Mem) : Mem × ℤ :=
  let args := load m (argsField task)
  if args = 0 then (m, -1)
  else if (Memory.strlen m args : ℤ) ≥ nbytes % 2 ^ 32 then (m, -1)
  else (Memory.strncpy buf args (nbytes % 2 ^ 32).toNat m, 0)

/-- What a call is to do: the arguments with NULs behind them, if there are arguments and they
are shorter than the buffer. -/
def getargsResult (s : List UInt8) (buf : BitVec 32) (n : ℕ) (m : Mem) : Mem × ℤ :=
  (argsOf s).elim (m, -1) fun A =>
    if A.length < n then (storeBytes (A ++ List.replicate (n - A.length) 0) buf m, 0) else (m, -1)

/-! ## The memory of the tasks -/

/-- An address in the memory of a task. -/
def InSlot (x : TaskId) (b : BitVec 32) : Prop := (b - taskSlot x).toNat < pkmSize

/-- `task_slot(x)->valid`. -/
def slotValid (m : Mem) (x : TaskId) : Prop := m (taskSlot x) ≠ 0

/-- What happens to the memory. -/
inductive MemEvent where
  /-- a task is started with the command `s` -/
  | start (x : TaskId) (command : BitVec 32) (s : List UInt8)
  /-- `task_deallocate` -/
  | stop (x : TaskId)
  /-- a task writes a byte of its `task_t` or of its kernel stack -/
  | own (x : TaskId) (o : ℕ) (c : UInt8)
  /-- anything is written outside the memory of the tasks -/
  | elsewhere (m : Mem)

/-- A byte that a task writes when it runs: in `task_t`, but for `valid`, `args` and
`kesp_base`, or on its kernel stack, which is below `kesp_base`. -/
structure OwnByte (m : Mem) (x : TaskId) (o : ℕ) : Prop where
  notValid : 4 ≤ o
  notArgs : o < 8 ∨ 12 ≤ o
  notKespBase : o < 20 ∨ 24 ≤ o
  inside : o < pkmSize
  below : o < sizeofTask ∨ o < (load m (kespBaseField (taskSlot x)) - taskSlot x).toNat

/-- One step of the memory.  A task is started in the first slot that is not valid. -/
inductive MemStep : Mem → MemEvent → Mem → Prop
  | start {m : Mem} {x : TaskId} {command : BitVec 32} {s : List UInt8} (hfree : ¬ slotValid m x)
      (hfirst : ∀ y < x, slotValid m y)
      (hcommand : ∀ y : TaskId, CommandAt m (taskSlot y) command s) :
      MemStep m (.start x command s)
        (storeStrings (taskSlot x) command (Function.update m (taskSlot x) 1)).mem
  | stop {m : Mem} {x : TaskId} (hvalid : slotValid m x) :
      MemStep m (.stop x) (Function.update m (taskSlot x) 0)
  | own {m : Mem} {x : TaskId} {o : ℕ} {c : UInt8} (hvalid : slotValid m x) (ho : OwnByte m x o) :
      MemStep m (.own x o c) (Function.update m (taskSlot x + BitVec.ofNat 32 o) c)
  | elsewhere {m m' : Mem} (hsame : ∀ x b, InSlot x b → m' b = m b) :
      MemStep m (.elsewhere m') m'

/-- A run of the memory. -/
inductive MemRun : Mem → List MemEvent → Mem → Prop
  | nil (m : Mem) : MemRun m [] m
  | cons {m m₁ m' : Mem} {e : MemEvent} {es : List MemEvent} (hstep : MemStep m e m₁)
      (hrun : MemRun m₁ es m') : MemRun m (e :: es) m'

/-- If the event starts a task, its strings fit in its memory. -/
def MemEvent.Fits : MemEvent → Prop
  | .start _ _ s => AuroraOS.Fits s
  | _ => True

/-! ## The slots are apart -/

variable {m m' m₁ : Mem} {x y : TaskId} {s A : List UInt8} {b buf command : BitVec 32} {n : ℕ}

theorem toNat_taskSlot (x : TaskId) : (taskSlot x).toNat = 0x01800000 - (x.val + 1) * pkmSize := by
  have hx := x.isLt
  simp only [taskSlot, pkmStartingAddr, pkmSize]
  bv_omega

/-- The memory of a task does not reach into that of another one. -/
theorem InSlot.other (h : InSlot y b) (hne : y ≠ x) : pkmSize ≤ (b - taskSlot x).toNat := by
  have hx := x.isLt
  have hy := y.isLt
  have hval : y.val ≠ x.val := fun he => hne (Fin.ext he)
  have hslot_x := toNat_taskSlot x
  have hslot_y := toNat_taskSlot y
  simp only [InSlot, pkmSize] at *
  bv_omega

theorem inSlot_add (x : TaskId) {o : ℕ} (ho : o < pkmSize) :
    InSlot x (taskSlot x + BitVec.ofNat 32 o) := by
  have hlt : o < 2 ^ 32 := by
    simp only [pkmSize] at ho
    omega
  rw [InSlot, toNat_add_sub _ hlt]
  exact ho

theorem inSlot_taskSlot (x : TaskId) : InSlot x (taskSlot x) := by
  rw [InSlot, BitVec.sub_self]
  decide

/-- The place of the strings is not `NULL`. -/
theorem kespBaseOf_ne_zero (x : TaskId) (hfits : Fits s) : kespBaseOf (taskSlot x) s ≠ 0 := by
  intro h0
  have hx := x.isLt
  have hslot := toNat_taskSlot x
  have hzero := congrArg BitVec.toNat h0
  rw [Fits] at hfits
  rw [kespBaseOf, BitVec.toNat_add, BitVec.toNat_ofNat, hslot] at hzero
  have hnull : (0 : BitVec 32).toNat = 0 := rfl
  simp only [pkmSize, sizeofTask] at *
  omega

/-! ## The invariant -/

/-- The arguments of a task are where `system_execute` has stored them. -/
structure Keeps (m : Mem) (x : TaskId) (s : List UInt8) : Prop where
  valid : slotValid m x
  kespBase : load m (kespBaseField (taskSlot x)) = kespBaseOf (taskSlot x) s
  noArgs : argsOf s = none → load m (argsField (taskSlot x)) = 0
  args : ∀ A, argsOf s = some A → load m (argsField (taskSlot x)) = kespBaseOf (taskSlot x) s ∧
    HasString m (kespBaseOf (taskSlot x) s) A

/-- The bytes of a slot that the arguments depend on. -/
def Kept (s : List UInt8) (o : ℕ) : Prop :=
  o = 0 ∨ 8 ≤ o ∧ o < 12 ∨ 20 ≤ o ∧ o < 24 ∨
    pkmSize - 1 - (nameOf s).length - argsLength s ≤ o ∧ o < pkmSize

/-- The invariant depends on these bytes. -/
theorem Keeps.congr (h : Keeps m x s) (hfits : Fits s)
    (hsame : ∀ b, Kept s (b - taskSlot x).toNat → m' b = m b) : Keeps m' x s := by
  have hload : ∀ {o : ℕ}, o = 8 ∨ o = 20 → load m' (taskSlot x + BitVec.ofNat 32 o) =
      load m (taskSlot x + BitVec.ofNat 32 o) := by
    intro o ho
    refine load_offset (by omega) fun b hlo hhi => hsame b ?_
    rw [Kept]
    omega
  refine ⟨?_, (hload (Or.inr rfl)).trans h.kespBase, fun hno =>
    (hload (Or.inl rfl)).trans (h.noArgs hno),
    fun A hA => ?_⟩
  · rw [slotValid, hsame _ (Or.inl (by rw [BitVec.sub_self]; rfl))]
    exact h.valid
  · obtain ⟨hargs, hstring⟩ := h.args A hA
    refine ⟨(hload (Or.inl rfl)).trans hargs, hstring.congr A fun i hi => hsame _ ?_⟩
    have hlength : argsLength s = A.length := by
      rw [argsLength, hA, Option.elim_some]
    rw [Fits, hlength] at hfits
    rw [kespBaseOf, ← add_ofNat_add, toNat_add_sub _ (by simp only [pkmSize] at hfits ⊢; omega),
      Kept, hlength]
    omega

/-- `valid` is not part of a command. -/
theorem CommandAt.update_valid (h : CommandAt m (taskSlot x) command s) (y : TaskId) (c : UInt8)
    (hy : CommandAt m (taskSlot y) command s) :
    CommandAt (Function.update m (taskSlot y) c) (taskSlot x) command s := by
  refine ⟨h.string.congr s fun i hi => Function.update_of_ne (fun he => ?_) _ _, h.noWrap,
    h.outside⟩
  have hout := hy.outside i hi
  rw [he, BitVec.sub_self] at hout
  exact absurd hout (by decide)

/-- A byte of a slot is not part of a command. -/
theorem CommandAt.ne_of_inSlot (h : CommandAt m (taskSlot x) command s) (hb : InSlot x b) :
    ∀ i ≤ s.length, b ≠ command + BitVec.ofNat 32 i := by
  rintro i hi rfl
  exact absurd (h.outside i hi) (Nat.not_le.mpr hb)

/-- A task that has been started. -/
theorem MemStep.keeps_start (h : MemStep m (.start x command s) m') (hfits : Fits s) :
    Keeps m' x s := by
  cases h with
  | start hfree hfirst hcommand =>
    have hst := storeStrings_stored ((hcommand x).update_valid x 1 (hcommand x)) hfits
    refine ⟨?_, hst.kespBase, fun hno => (hst.noArgs hno).1, fun A hA => ?_⟩
    · have hnot := (hcommand x).ne_of_inSlot (inSlot_taskSlot x)
      rw [slotValid, hst.outside _ hnot (Or.inl (by rw [BitVec.sub_self]; decide)),
        Function.update_self]
      decide
    · obtain ⟨hargs, hstring, -⟩ := hst.args A hA
      exact ⟨hargs, hstring⟩

/-- The bytes of another slot stay what they were when a task is started. -/
theorem MemStep.start_other (h : MemStep m (.start y command s) m') (hfits : Fits s) (hne : x ≠ y)
    (hb : InSlot x b) : m' b = m b := by
  cases h with
  | start hfree hfirst hcommand =>
    have hst := storeStrings_stored ((hcommand y).update_valid y 1 (hcommand y)) hfits
    have hfar := hb.other hne
    rw [hst.outside b ((hcommand x).ne_of_inSlot hb) (Or.inr hfar)]
    refine Function.update_of_ne (fun he => ?_) _ _
    rw [he, BitVec.sub_self] at hfar
    exact absurd hfar (by decide)

/-- **Every step keeps the arguments** of a task that it does not stop. -/
theorem MemStep.keeps {e : MemEvent} (h : MemStep m e m') (hfits : Fits s) (hx : e ≠ .stop x)
    (he : e.Fits) (hk : Keeps m x s) : Keeps m' x s := by
  have hkept : ∀ {b : BitVec 32}, Kept s (b - taskSlot x).toNat → InSlot x b := by
    intro b hb
    simp only [InSlot, Kept, pkmSize] at *
    omega
  cases e with
  | start y command t =>
    have hne : x ≠ y := by
      rintro rfl
      cases h with
      | start hfree hfirst hcommand => exact hfree hk.valid
    exact hk.congr hfits fun b hb => h.start_other he hne (hkept hb)
  | stop y =>
    have hne : x ≠ y := fun hxy => hx (congrArg MemEvent.stop hxy.symm)
    cases h with
    | stop hvalid =>
      refine hk.congr hfits fun b hb => Function.update_of_ne (fun he => ?_) _ _
      have hfar := (hkept hb).other hne
      rw [he, BitVec.sub_self] at hfar
      exact absurd hfar (by decide)
  | own y o c =>
    cases h with
    | own hvalid ho =>
      refine hk.congr hfits fun b hb => Function.update_of_ne (fun he => ?_) _ _
      by_cases hne : y = x
      · subst hne
        have hbelow := ho.below
        have hin := ho.inside
        have h4 := ho.notValid
        have hargs := ho.notArgs
        have hbase := ho.notKespBase
        rw [Fits] at hfits
        rw [hk.kespBase, kespBaseOf, toNat_add_sub _ (by simp only [pkmSize]; omega)] at hbelow
        rw [he, toNat_add_sub _ (by simp only [pkmSize] at hin; omega), Kept] at hb
        simp only [pkmSize, sizeofTask] at *
        omega
      · have hfar := (inSlot_add y ho.inside).other hne
        rw [← he] at hfar
        exact absurd (hkept hb) (Nat.not_lt.mpr hfar)
  | elsewhere m'' =>
    cases h with
    | elsewhere hsame => exact hk.congr hfits fun b hb => hsame x b (hkept hb)

theorem MemRun.keeps {es : List MemEvent} (h : MemRun m es m') (hfits : Fits s)
    (hx : ∀ e ∈ es, e ≠ .stop x) (hes : ∀ e ∈ es, e.Fits) (hk : Keeps m x s) : Keeps m' x s := by
  induction h with
  | nil => exact hk
  | cons hstep hrun ih =>
    obtain ⟨hx₁, hx⟩ := List.forall_mem_cons.mp hx
    obtain ⟨he, hes⟩ := List.forall_mem_cons.mp hes
    exact ih hx hes (hstep.keeps hfits hx₁ he hk)

/-! ## The result -/

/-- `system_getargs` where the arguments are kept. -/
theorem Keeps.getargs (hk : Keeps m x s) (hfits : Fits s) (hn : n < 2 ^ 31)
    (hbuf : ∀ i < n, ¬ InSlot x (buf + BitVec.ofNat 32 i)) :
    systemGetargsAt (taskSlot x) buf n m = getargsResult s buf n m := by
  have hmod : (n : ℤ) % 2 ^ 32 = n := by omega
  cases hA : argsOf s with
  | none => rw [systemGetargsAt, if_pos (hk.noArgs hA), getargsResult, hA, Option.elim_none]
  | some A =>
    obtain ⟨hargs, hstring⟩ := hk.args A hA
    have hlength : argsLength s = A.length := by
      rw [argsLength, hA, Option.elim_some]
    have hroom := hfits
    rw [Fits, hlength] at hroom
    have hlen := strlen_eq hstring (by simp only [pkmSize] at hroom; omega)
    have hne := kespBaseOf_ne_zero x hfits
    rw [systemGetargsAt, hargs, if_neg hne, hlen, hmod, getargsResult, hA, Option.elim_some]
    by_cases hlt : A.length < n
    · have hapart : Apart buf (kespBaseOf (taskSlot x) s) n (A.length + 1) := by
        intro i hi j hj he
        refine hbuf i hi ?_
        rw [he, kespBaseOf, ← add_ofNat_add]
        refine inSlot_add x ?_
        rw [hlength]
        omega
      rw [if_neg (by omega), if_pos hlt, Int.toNat_natCast, strncpy_eq hstring hlt hapart]
    · rw [if_pos (by omega), if_neg hlt]

/-- The system call of the kernel whose tasks carry their arguments as lists does the same. -/
theorem getargsWrite_eq (k : Kernel) (hs : ∀ c ∈ s, c ≠ 0) (hargs : k.runningTask.args = argsOf s)
    (hn : n < 2 ^ 31) (m : Mem) :
    getargsResult s buf n m =
      (storeBytes (k.getargsWrite n).bytes buf m, (k.getargsWrite n).ret) := by
  have hmod : (n : ℤ) % 2 ^ 32 = n := by omega
  unfold Kernel.getargsWrite
  rw [hargs, getargsResult]
  rcases join_name_args s with ⟨hnone, -, -⟩ | ⟨A, hA, hjoin⟩
  · rw [hnone]
    rfl
  · have hzero : ∀ c ∈ A, c ≠ 0 := by
      intro c hc
      refine hs c ?_
      rw [hjoin]
      exact List.mem_append_right _ (List.mem_cons_of_mem _ hc)
    have htake : A.takeWhile (· ≠ 0) = A :=
      List.takeWhile_eq_self_iff.mpr fun c hc => decide_eq_true (hzero c hc)
    have hlen : AuroraOS.strlen A = A.length := by
      rw [AuroraOS.strlen, htake]
    rw [hA, Option.elim_some]
    simp only [hlen, hmod, Int.toNat_natCast]
    by_cases hlt : A.length < n
    · rw [if_pos hlt, if_neg (by omega)]
      show _ = (storeBytes (AuroraOS.strncpy A n) buf m, 0)
      simp only [AuroraOS.strncpy, htake, List.take_of_length_le (Nat.le_of_lt hlt)]
    · rw [if_neg hlt, if_pos (by omega)]
      rfl

/-- What is written outside the slot when the arguments are too long for it: they go on below
`task_t`, in the memory of the next task. -/
theorem storeStrings_outside {task : BitVec 32} (h : CommandAt m task command s)
    (hn : (nameOf s).length + sizeofTask < pkmSize) (hA : argsOf s = some A) {argsAt : BitVec 32}
    (hat : argsAt = task + BitVec.ofNat 32 (pkmSize - 1 - (nameOf s).length) -
      BitVec.ofNat 32 A.length)
    (hapart : Apart argsAt (command + BitVec.ofNat 32 ((nameOf s).length + 1)) (A.length + 1)
      (A.length + 1))
    (hb : ∀ i ≤ s.length, b ≠ command + BitVec.ofNat 32 i) (hout : LeftAlone task b) :
    (storeStrings task command m).mem b = storeBytes (A ++ [0]) argsAt m b := by
  obtain ⟨m₁, args, m', hsplit, hsame, hstore, hname⟩ := storeName_spec h hn
  have hstring := h.argsString hsplit hname hA
  obtain ⟨-, hargs, hlen, -⟩ := hsplit.args A hA
  have hwrap := h.noWrap
  have hargs_out : ∀ i ≤ A.length, pkmSize ≤ (args + BitVec.ofNat 32 i - task).toNat := by
    intro i hi
    rw [hargs, ← add_ofNat_add]
    exact h.outside _ (by omega)
  have hcopy : strcpy argsAt args (store m' (kespBaseField task) argsAt) =
      storeBytes (A ++ [0]) argsAt (store m' (kespBaseField task) argsAt) :=
    strcpy_eq (HasString.store_field hstring (by decide) hargs_out) (by omega)
      (by rw [hargs]; exact hapart)
  rw [storeStrings_eq hstore (storeArgs_some h hsplit hname hA hat), hcopy]
  show store (store _ (argsField task) argsAt) (kespField task) _ b = _
  rw [kespField, store_field_outside (by decide) (by decide) hout, argsField,
    store_field_outside (by decide) (by decide) hout]
  refine storeBytes_congr _ ?_
  rw [kespBaseField, store_field_outside (by decide) (by decide) hout, hname.outside b hout,
    hsame b hb hout]

/-- The text of a program at its usual address; the memory of the tasks is as it was. -/
def typed (s : List UInt8) (m : Mem) : Mem := fun b =>
  if (pkmStartingAddr - b).toNat ≤ 10 * pkmSize then m b else userText s b

theorem typed_inSlot (h : InSlot x b) : typed s m b = m b := by
  have hx := x.isLt
  have hslot := toNat_taskSlot x
  refine if_pos ?_
  simp only [InSlot, pkmStartingAddr, pkmSize] at *
  bv_omega

theorem commandAt_typed (hs : ∀ c ∈ s, c ≠ 0) (hlen : s.length ≤ 0x10000) (m : Mem) (y : TaskId) :
    CommandAt (typed s m) (taskSlot y) 0x08048000#32 s := by
  have h := commandAt_userText hs hlen y.isLt
  refine ⟨h.string.congr s fun i hi => if_neg ?_, h.noWrap, h.outside⟩
  simp only [pkmStartingAddr, pkmSize]
  bv_omega

/-- The command line `cat bb…b`, longer than the memory of a task. -/
def longCommand : List UInt8 := 99 :: 97 :: 116 :: 32 :: List.replicate 8300 98

theorem argsOf_long : argsOf longCommand = some (List.replicate 8300 98) := rfl

theorem length_long : longCommand.length = 8304 := by
  show (List.replicate 8300 98).length + 4 = 8304
  rw [List.length_replicate]

/-- The first five slots are in use. -/
def fiveTasks : Mem := fun b =>
  if b = taskSlot 0 ∨ b = taskSlot 1 ∨ b = taskSlot 2 ∨ b = taskSlot 3 ∨ b = taskSlot 4 then 1
  else 0

/-- A task is started with a command that has just been typed in. -/
def started (x : TaskId) (s : List UInt8) (m : Mem) : Mem :=
  (storeStrings (taskSlot x) 0x08048000#32 (Function.update (typed s m) (taskSlot x) 1)).mem

/-- A command is typed in, and a task ends. -/
def ended (x : TaskId) (s : List UInt8) (m : Mem) : Mem :=
  Function.update (typed s m) (taskSlot x) 0

theorem longCommand_ne_zero : ∀ c ∈ longCommand, c ≠ 0 := by
  intro c hc
  rw [longCommand, List.mem_cons, List.mem_cons, List.mem_cons, List.mem_cons] at hc
  rcases hc with rfl | rfl | rfl | rfl | hc
  · decide
  · decide
  · decide
  · decide
  · rw [List.eq_of_mem_replicate hc]
    decide

theorem ended_other (hne : x ≠ y) (hb : InSlot x b) : ended y s m b = m b := by
  have hfar := hb.other hne
  rw [ended, Function.update_of_ne, typed_inSlot hb]
  rintro rfl
  rw [BitVec.sub_self] at hfar
  exact absurd hfar (by decide)

/-- The sixth task is started with `cat x`. -/
theorem start_cat :
    MemStep (typed catX fiveTasks) (.start 5 0x08048000#32 catX) (started 5 catX fiveTasks) := by
  refine .start ?_ ?_ (commandAt_typed (by decide +kernel) (by decide) _)
  · rw [slotValid, typed_inSlot (inSlot_taskSlot 5)]
    decide +kernel
  · intro y hy
    rw [slotValid, typed_inSlot (inSlot_taskSlot y)]
    revert y
    decide +kernel

/-- The first tasks are still in use then. -/
theorem catStarted_valid (y : TaskId) (hy : y < 5) : slotValid (started 5 catX fiveTasks) y := by
  rw [slotValid, start_cat.start_other (by decide) (ne_of_lt hy) (inSlot_taskSlot y),
    typed_inSlot (inSlot_taskSlot y)]
  revert y
  decide +kernel

/-- The command that is typed in while the fifth task ends. -/
theorem commandAt_long (m : Mem) (y : TaskId) :
    CommandAt (ended 4 longCommand m) (taskSlot y) 0x08048000#32 longCommand := by
  have hlen : longCommand.length ≤ 0x10000 := by
    rw [length_long]
    decide
  have h := commandAt_typed longCommand_ne_zero hlen m
  exact (h y).update_valid 4 0 (h 4)

/-- The slot of the fifth task is used for the long command. -/
def longStarted (m : Mem) : Mem :=
  (storeStrings (taskSlot 4) 0x08048000#32
    (Function.update (Function.update (typed longCommand m) (taskSlot 4) 0) (taskSlot 4) 1)).mem

theorem start_long (hvalid : ∀ y < 4, slotValid m y) :
    MemStep (ended 4 longCommand m) (.start 4 0x08048000#32 longCommand) (longStarted m) := by
  refine .start (fun h => h (Function.update_self _ _ _)) (fun y hy => ?_) (commandAt_long m)
  rw [slotValid, ended_other (ne_of_lt hy) (inSlot_taskSlot y)]
  exact hvalid y hy

/-- The memory of the sixth task behind the start of the long command. -/
theorem longStarted_eq (hb : InSlot 5 b) :
    longStarted m b = storeBytes (List.replicate 8300 98 ++ [0])
      (taskSlot 5 + BitVec.ofNat 32 8080) m b := by
  have hout : pkmSize ≤ (b - taskSlot 4).toNat := hb.other (x := 4) (by decide)
  have hcommand := (commandAt_long m 4).update_valid 4 1 (commandAt_long m 4)
  have hlen : (List.replicate 8300 (98 : UInt8)).length = 8300 := List.length_replicate
  have hat : taskSlot 5 + BitVec.ofNat 32 8080 = taskSlot 4 +
      BitVec.ofNat 32 (pkmSize - 1 - (nameOf longCommand).length) - BitVec.ofNat 32 8300 := by
    decide
  refine (storeStrings_outside hcommand (by decide) argsOf_long (by rw [hlen]; exact hat) ?_
    ((commandAt_long m 5).ne_of_inSlot hb) (Or.inr hout)).trans (storeBytes_congr _ ?_)
  · intro i hi j hj
    rw [hlen] at hi hj
    have hname : (nameOf longCommand).length = 3 := rfl
    have hslot : taskSlot 5 = 0x017F4000#32 := by decide
    rw [hname, hslot]
    bv_omega
  · refine (Function.update_of_ne ?_ _ _).trans (ended_other (by decide) hb)
    rintro rfl
    exact absurd hout (by decide)

/-- Its first bytes are no NULs. -/
theorem longStarted_args {i : ℕ} (hi : i < 5) :
    longStarted m (kespBaseOf (taskSlot 5) catX + BitVec.ofNat 32 i) ≠ 0 := by
  have hbase : kespBaseOf (taskSlot 5) catX =
      taskSlot 5 + BitVec.ofNat 32 8080 + BitVec.ofNat 32 107 := by decide
  have haddr : kespBaseOf (taskSlot 5) catX + BitVec.ofNat 32 i =
      taskSlot 5 + BitVec.ofNat 32 8080 + BitVec.ofNat 32 (107 + i) := by
    rw [add_ofNat_add, hbase]
  have hin : InSlot 5 (taskSlot 5 + BitVec.ofNat 32 8080 + BitVec.ofNat 32 (107 + i)) := by
    rw [← add_ofNat_add]
    exact inSlot_add 5 (by simp only [pkmSize]; omega)
  have hlen : 107 + i < (List.replicate 8300 (98 : UInt8)).length := by
    rw [List.length_replicate]
    omega
  have hlen' : (List.replicate 8300 (98 : UInt8) ++ [0]).length = 8301 := by
    rw [List.length_append, List.length_replicate]
    rfl
  rw [haddr, longStarted_eq hin, storeBytes_at _ _ _ (by omega) (by omega),
    List.getElem_append_left hlen, List.getElem_replicate]
  decide

/-- The pointer to the arguments is still there. -/
theorem load_longStarted :
    load (longStarted m) (argsField (taskSlot 5)) = load m (argsField (taskSlot 5)) := by
  have hlen' : (List.replicate 8300 (98 : UInt8) ++ [0]).length = 8301 := by
    rw [List.length_append, List.length_replicate]
    rfl
  refine load_offset (by decide) fun b hlo hhi => ?_
  have hin : InSlot 5 b := lt_trans hhi (by decide)
  rw [longStarted_eq hin]
  exact storeBytes_offset _ (by omega) (Or.inl (by omega))

end AuroraOS
