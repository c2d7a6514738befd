/-
# The strings on the kernel stack

The part of `system_execute` that stores the name and the arguments of a command at the end
of the memory of the new task, on the bytes of the kernel: the command is split in place,
each string is copied below the one before, and `kesp_base` goes down by the length of the
string, without its NUL.

The fields of `task_t` are words of the same memory.  On the i386 they lie at these
offsets: `valid` 0, `executable_name` 4, `args` 8, `flags` 12, `parent` 16, `kesp_base` 20,
`kesp` 24, `page_id` 28, `vidmap_enabled` 32, `list_node` 36, `sched_ctrl` 44, `rtc` 48,
`terminal` 56, `file_array` 60 with 132 bytes, and `signals` 192 with 36 bytes.
-/
import AuroraOS.CString
import AuroraOS.System

namespace AuroraOS

open Memory

/-! ## The memory of a task -/

/-- `PKM_SIZE_IN_BYTES`. -/
abbrev pkmSize : ℕ := 8192
/-- `sizeof(task_t)`. -/
abbrev sizeofTask : ℕ := 228
/-- `PKM_STARTING_ADDR`. -/
abbrev pkmStartingAddr : BitVec 32 := 0x01800000#32

/-- `task_slot`. -/
def taskSlot (idx : ℕ) : BitVec 32 := pkmStartingAddr - BitVec.ofNat 32 ((idx + 1) * pkmSize)

/-- `&task->executable_name`. -/
def executableNameField (task : BitVec 32) : BitVec 32 := task + BitVec.ofNat 32 4
/-- `&task->args`. -/
def argsField (task : BitVec 32) : BitVec 32 := task + BitVec.ofNat 32 8
/-- `&task->kesp_base`. -/
def kespBaseField (task : BitVec 32) : BitVec 32 := task + BitVec.ofNat 32 20
/-- `&task->kesp`. -/
def kespField (task : BitVec 32) : BitVec 32 := task + BitVec.ofNat 32 24

/-! ## The functions -/

/-- The loop of `execute_parse_command`: the memory and `*args`. -/
def parseLoop (m : Mem) : ℕ → BitVec 32 → Mem × BitVec 32
  | 0, _ => (m, 0)
  | n + 1, command =>
    if m command = 0 then (m, 0)
    else if m command = 32 then (Function.update m command 0, command + 1#32)
    else parseLoop m n (command + 1#32)

/-- `execute_parse_command`, in memory. -/
@[irreducible] def executeParseCommandAt (command : BitVec 32) (m : Mem) : Mem × BitVec 32 :=
  parseLoop m (2 ^ 32) command

/-- `system_execute`, from the initialisation of `kesp_base` to the copy of the name: the
memory, and where the name is. -/
def storeName (task command : BitVec 32) (m : Mem) : Mem × BitVec 32 :=
  let m := store m (kespBaseField task) (task + BitVec.ofNat 32 pkmSize - 1#32)
  let (m, args) := executeParseCommandAt command m
  let m := store m (argsField task) args
  let m := store m (executableNameField task) command
  let temp := Memory.strlen m (load m (executableNameField task))
  let m := store m (kespBaseField task) (load m (kespBaseField task) - BitVec.ofNat 32 temp)
  let nameAt := load m (kespBaseField task)
  let m := strcpy nameAt (load m (executableNameField task)) m
  (store m (executableNameField task) nameAt, nameAt)

/-- The copy of the arguments: the memory, and where they are. -/
def storeArgs (task : BitVec 32) (m : Mem) : Mem × Option (BitVec 32) :=
  if load m (argsField task) ≠ 0 then
    let temp := Memory.strlen m (load m (argsField task))
    let m := store m (kespBaseField task) (load m (kespBaseField task) - BitVec.ofNat 32 temp)
    let argsAt := load m (kespBaseField task)
    let m := strcpy argsAt (load m (argsField task)) m
    (store m (argsField task) argsAt, some argsAt)
  else (m, none)

/-- The memory behind Phase 1, and the places the strings were copied to. -/
structure StoredStrings where
  mem : Mem
  nameAt : BitVec 32
  argsAt : Option (BitVec 32)

/-- The strings of `system_execute`, up to `task->kesp = task->kesp_base`. -/
def storeStrings (task command : BitVec 32) (m : Mem) : StoredStrings :=
  let name := storeName task command m
  let args := storeArgs task name.1
  { mem := store args.1 (kespField task) (load args.1 (kespBaseField task))
    nameAt := name.2
    argsAt := args.2 }

/-! ## Splitting the command -/

/-- The name of a command. -/
def nameOf (s : List UInt8) : List UInt8 := (Kernel.executeParseCommand s).1

/-- The arguments of a command, if there is a space in it. -/
def argsOf (s : List UInt8) : Option (List UInt8) := (Kernel.executeParseCommand s).2

variable {m : Mem} {task command : BitVec 32} {s A : List UInt8}

theorem nameOf_space (s : List UInt8) : nameOf (32 :: s) = [] := rfl

theorem argsOf_space (s : List UInt8) : argsOf (32 :: s) = some s := rfl

theorem executeParseCommand_cons {c : UInt8} (hc : c ≠ 32) (s : List UInt8) :
    nameOf (c :: s) = c :: nameOf s ∧ argsOf (c :: s) = argsOf s := by
  have hdrop : (c :: s).dropWhile (fun c => decide (c ≠ 32)) =
      s.dropWhile (fun c => decide (c ≠ 32)) := List.dropWhile_cons_of_pos (by simpa using hc)
  have htake : (c :: s).takeWhile (fun c => decide (c ≠ 32)) =
      c :: s.takeWhile (fun c => decide (c ≠ 32)) := List.takeWhile_cons_of_pos (by simpa using hc)
  unfold nameOf argsOf Kernel.executeParseCommand
  rw [hdrop, htake]
  cases s.dropWhile (fun c => decide (c ≠ 32)) <;> exact ⟨rfl, rfl⟩

/-- The name and the arguments put together. -/
theorem join_name_args (s : List UInt8) :
    (argsOf s = none ∧ s = nameOf s ∧ 32 ∉ s) ∨
      ∃ A, argsOf s = some A ∧ s = nameOf s ++ 32 :: A := by
  induction s with
  | nil => exact Or.inl ⟨rfl, rfl, List.not_mem_nil⟩
  | cons c cs ih =>
    by_cases hc : c = 32
    · subst hc
      exact Or.inr ⟨cs, rfl, rfl⟩
    · obtain ⟨hname, hargs⟩ := executeParseCommand_cons hc cs
      rw [hname, hargs]
      rcases ih with ⟨hnone, hs, hspace⟩ | ⟨A, hsome, hs⟩
      · refine Or.inl ⟨hnone, congrArg (c :: ·) hs, ?_⟩
        rw [List.mem_cons, not_or]
        exact ⟨fun he => hc he.symm, hspace⟩
      · exact Or.inr ⟨A, hsome, congrArg (c :: ·) hs⟩

theorem length_nameOf_le (s : List UInt8) : (nameOf s).length ≤ s.length := by
  rcases join_name_args s with ⟨-, hs, -⟩ | ⟨A, -, hs⟩
  · exact Nat.le_of_eq (congrArg List.length hs).symm
  · have hlen := congrArg List.length hs
    rw [List.length_append] at hlen
    omega

/-- **Splitting in place**: with a space in the command, it becomes a NUL, and the arguments
are behind it. -/
theorem parseLoop_eq (s : List UInt8) : ∀ {n : ℕ} {command : BitVec 32}, HasString m command s →
    s.length < n → parseLoop m n command = (argsOf s).elim (m, 0) fun _ =>
      (Function.update m (command + BitVec.ofNat 32 (nameOf s).length) 0,
        command + BitVec.ofNat 32 ((nameOf s).length + 1)) := by
  induction s with
  | nil =>
    intro n command h hn
    obtain ⟨n, rfl⟩ := Nat.exists_eq_succ_of_ne_zero (Nat.ne_of_gt hn)
    exact if_pos h
  | cons c cs ih =>
    intro n command h hn
    obtain ⟨n, rfl⟩ := Nat.exists_eq_succ_of_ne_zero (Nat.ne_of_gt (Nat.zero_lt_of_lt hn))
    have hne : m command ≠ 0 := by
      rw [h.2.1]
      exact h.1
    rw [parseLoop, if_neg hne, h.2.1]
    by_cases hc : c = 32
    · subst hc
      rw [if_pos rfl, argsOf_space, nameOf_space]
      show _ = (Function.update m (command + BitVec.ofNat 32 0) 0,
        command + BitVec.ofNat 32 (0 + 1))
      rw [BitVec.add_zero]
    · obtain ⟨hname, hargs⟩ := executeParseCommand_cons hc cs
      have haddr : ∀ i : ℕ, command + 1#32 + BitVec.ofNat 32 i =
        command + BitVec.ofNat 32 (i + 1) := by
        intro i
        rw [BitVec.add_assoc, ← BitVec.ofNat_add, Nat.add_comm 1]
      rw [if_neg hc, ih h.2.2 (Nat.lt_of_succ_lt_succ hn), hname, hargs]
      simp only [haddr, List.length_cons]

/-! ## Where the strings are -/

/-- A command in the memory of the caller: a string that does not wrap around, outside the
memory of the new task. -/
structure CommandAt (m : Mem) (task command : BitVec 32) (s : List UInt8) : Prop where
  string : HasString m command s
  noWrap : command.toNat + s.length < 2 ^ 32
  outside : ∀ i ≤ s.length, pkmSize ≤ (command + BitVec.ofNat 32 i - task).toNat

/-- The command behind the split: the name is a string, and so are the arguments. -/
structure SplitCommand (command : BitVec 32) (s : List UInt8) (m : Mem) (args : BitVec 32) :
    Prop where
  name : HasString m command (nameOf s)
  noArgs : argsOf s = none → args = 0
  args : ∀ A, argsOf s = some A → args ≠ 0 ∧
    args = command + BitVec.ofNat 32 ((nameOf s).length + 1) ∧
      (nameOf s).length + 1 + A.length = s.length ∧ HasString m args A

/-- Only a byte of the command changes. -/
theorem CommandAt.split (h : CommandAt m task command s) :
    ∃ m₁ args, executeParseCommandAt command m = (m₁, args) ∧ SplitCommand command s m₁ args ∧
      ∀ b : BitVec 32, (∀ i ≤ s.length, b ≠ command + BitVec.ofNat 32 i) → m₁ b = m b := by
  have hlen : s.length < 2 ^ 32 := by
    have := h.noWrap
    omega
  have hparse := parseLoop_eq s h.string hlen
  rw [← executeParseCommandAt] at hparse
  have hname := length_nameOf_le s
  rcases join_name_args s with ⟨hnone, hs, -⟩ | ⟨A, hsome, hs⟩
  · rw [hnone] at hparse
    refine ⟨m, 0, hparse, ⟨hs ▸ h.string, fun _ => rfl, fun A hA => ?_⟩, fun _ _ => rfl⟩
    rw [hnone] at hA
    cases hA
  · rw [hsome] at hparse
    have hlen' := congrArg List.length hs
    rw [List.length_append, List.length_cons] at hlen'
    refine ⟨_, _, hparse, ⟨(hs ▸ h.string).cut _ (by omega), fun hno => ?_, fun A' hA' => ?_⟩,
      fun b hb => Function.update_of_ne (hb _ hname) _ _⟩
    · rw [hsome] at hno
      cases hno
    · obtain rfl : A = A' := Option.some.inj (hsome.symm.trans hA')
      refine ⟨?_, rfl, by omega, ?_⟩
      · intro h0
        have hzero := congrArg BitVec.toNat h0
        have hwrap := h.noWrap
        rw [BitVec.toNat_add, BitVec.toNat_ofNat, Nat.mod_eq_of_lt (by omega),
          Nat.mod_eq_of_lt (by omega)] at hzero
        have : (0 : BitVec 32).toNat = 0 := rfl
        omega
      · have htail := h.string.drop s (i := (nameOf s).length + 1) (by omega)
        have hbehind : (nameOf s ++ 32 :: A).drop ((nameOf s).length + 1) = A := by
          rw [← List.drop_drop, List.drop_left]
          rfl
        rw [(congrArg (List.drop ((nameOf s).length + 1)) hs).trans hbehind] at htail
        refine htail.congr A fun i hi => Function.update_of_ne (fun he => ?_) _ _
        rw [← add_ofNat_add] at he
        have := add_ofNat_injective (by omega) (by omega) he
        omega

/-! ## The copies -/

/-- An address of the command is outside the memory of the new task. -/
theorem CommandAt.apart (h : CommandAt m task command s) {i o : ℕ} (hi : i ≤ s.length)
    (ho : o < pkmSize) : task + BitVec.ofNat 32 o ≠ command + BitVec.ofNat 32 i := by
  intro he
  have hout := h.outside i hi
  rw [← he, toNat_add_sub task (by simp only [pkmSize] at ho; omega)] at hout
  omega

/-- The bytes that the copies leave alone: `valid`, and what is outside the memory of the
task. -/
def LeftAlone (task b : BitVec 32) : Prop := (b - task).toNat < 4 ∨ pkmSize ≤ (b - task).toNat

/-- What lies in the memory of the task behind the copy of the name. -/
structure NameStored (task : BitVec 32) (name : List UInt8) (args : BitVec 32)
    (m₁ m : Mem) : Prop where
  nameField : load m (executableNameField task) = task + BitVec.ofNat 32 (pkmSize - 1 - name.length)
  argsField : load m (argsField task) = args
  kespBase : load m (kespBaseField task) = task + BitVec.ofNat 32 (pkmSize - 1 - name.length)
  name : HasString m (task + BitVec.ofNat 32 (pkmSize - 1 - name.length)) name
  outside : ∀ b : BitVec 32, LeftAlone task b → m b = m₁ b

/-- A store of a field, for the bytes that are not in it. -/
theorem store_field {o : ℕ} {w b : BitVec 32} (ho : o + 4 ≤ sizeofTask)
    (hb : (b - task).toNat < o ∨ o + 4 ≤ (b - task).toNat) :
    store m (task + BitVec.ofNat 32 o) w b = m b := by
  simp only [sizeofTask] at ho
  exact store_offset (by omega) hb

/-- A store of a field, for another field. -/
theorem load_store_field {o o' : ℕ} {w : BitVec 32} (ho : o + 4 ≤ sizeofTask)
    (ho' : o' + 4 ≤ sizeofTask) (hne : o + 4 ≤ o' ∨ o' + 4 ≤ o) :
    load (store m (task + BitVec.ofNat 32 o) w) (task + BitVec.ofNat 32 o') =
      load m (task + BitVec.ofNat 32 o') := by
  simp only [sizeofTask] at ho ho'
  refine load_offset (by omega) fun b hlo hhi => store_offset (by omega) (by omega)

/-- A string of the command is still there after a store in the memory of the task. -/
theorem HasString.store_field {a w : BitVec 32} {t : List UInt8} {o : ℕ} (h : HasString m a t)
    (ho : o + 4 ≤ sizeofTask)
    (hout : ∀ i ≤ t.length, pkmSize ≤ (a + BitVec.ofNat 32 i - task).toNat) :
    HasString (store m (task + BitVec.ofNat 32 o) w) a t := by
  refine h.congr t fun i hi => AuroraOS.store_field ho (Or.inr ?_)
  have := hout i hi
  simp only [pkmSize, sizeofTask] at *
  omega

/-- A string stored at the end of the memory of the task, for its fields and for what is
outside. -/
theorem storeString_field {o k : ℕ} {t : List UInt8} (ho : o + 4 ≤ sizeofTask)
    (hk : sizeofTask ≤ k) (hlen : k + t.length + 1 ≤ pkmSize) :
    load (storeBytes (t ++ [0]) (task + BitVec.ofNat 32 k) m) (task + BitVec.ofNat 32 o) =
      load m (task + BitVec.ofNat 32 o) := by
  have hlen' : (t ++ [0]).length = t.length + 1 := List.length_append
  simp only [sizeofTask, pkmSize] at ho hk hlen
  exact load_offset (by omega) fun b hlo hhi =>
    storeBytes_offset _ (by omega) (Or.inl (by omega))

theorem storeString_outside {k : ℕ} {b : BitVec 32} {t : List UInt8} (hk : sizeofTask ≤ k)
    (hlen : k + t.length + 1 ≤ pkmSize) (hb : LeftAlone task b) :
    storeBytes (t ++ [0]) (task + BitVec.ofNat 32 k) m b = m b := by
  have hlen' : (t ++ [0]).length = t.length + 1 := List.length_append
  simp only [LeftAlone, pkmSize, sizeofTask] at hk hlen hb
  exact storeBytes_offset _ (by omega) (by omega)

/-- A store of a field leaves them alone. -/
theorem store_field_outside {o : ℕ} {w b : BitVec 32} (h4 : 4 ≤ o) (ho : o + 4 ≤ sizeofTask)
    (hb : LeftAlone task b) : store m (task + BitVec.ofNat 32 o) w b = m b := by
  simp only [LeftAlone, pkmSize, sizeofTask] at ho hb
  exact store_field (by simp only [sizeofTask]; omega) (by omega)

/-- A string at the end of the memory of the task is still there after a store of a field. -/
theorem HasString.store_below {k o : ℕ} {w : BitVec 32} {t : List UInt8}
    (h : HasString m (task + BitVec.ofNat 32 k) t) (ho : o + 4 ≤ sizeofTask) (hk : sizeofTask ≤ k)
    (hlen : k + t.length + 1 ≤ pkmSize) :
    HasString (store m (task + BitVec.ofNat 32 o) w) (task + BitVec.ofNat 32 k) t := by
  refine h.congr t fun i hi => AuroraOS.store_field ho (Or.inr ?_)
  simp only [sizeofTask, pkmSize] at ho hk hlen
  rw [← add_ofNat_add, toNat_add_sub task (by omega)]
  omega

theorem top_sub (task : BitVec 32) {n : ℕ} (hn : n < pkmSize) :
    task + BitVec.ofNat 32 (pkmSize - 1) - BitVec.ofNat 32 n =
      task + BitVec.ofNat 32 (pkmSize - 1 - n) := by
  have hsplit : pkmSize - 1 = pkmSize - 1 - n + n := by omega
  conv_lhs => rw [hsplit, add_ofNat_add]
  exact BitVec.add_sub_cancel _ _

/-- **The copy of the name** goes to the end of the memory of the task. -/
theorem storeName_spec (h : CommandAt m task command s)
    (hn : (nameOf s).length + sizeofTask < pkmSize) :
    ∃ m₁ args m', SplitCommand command s m₁ args ∧
      (∀ b : BitVec 32, (∀ i ≤ s.length, b ≠ command + BitVec.ofNat 32 i) →
        LeftAlone task b → m₁ b = m b) ∧
      storeName task command m =
        (m', task + BitVec.ofNat 32 (pkmSize - 1 - (nameOf s).length)) ∧
      NameStored task (nameOf s) args m₁ m' := by
  set n := (nameOf s).length with hn_def
  have hlt : n < pkmSize := by omega
  have hle := length_nameOf_le s
  -- `kesp_base` is set up, and the command is split
  set m₀ := store m (kespBaseField task) (task + BitVec.ofNat 32 (pkmSize - 1)) with hm₀
  have hcommand : CommandAt m₀ task command s :=
    ⟨HasString.store_field h.string (by decide) h.outside, h.noWrap, h.outside⟩
  obtain ⟨m₁, args, hparse, hsplit, hsame⟩ := hcommand.split
  have hin : ∀ b : BitVec 32, (b - task).toNat < pkmSize → m₁ b = m₀ b := by
    intro b hb
    refine hsame b fun i hi he => ?_
    exact absurd (h.outside i hi) (by rw [← he]; omega)
  have hstring : ∀ {M : Mem} {o : ℕ} {w : BitVec 32}, o + 4 ≤ sizeofTask →
      HasString M command (nameOf s) →
        HasString (store M (task + BitVec.ofNat 32 o) w) command (nameOf s) :=
    fun ho hM => HasString.store_field hM ho fun i hi => h.outside i (Nat.le_trans hi hle)
  set m₂ := store m₁ (argsField task) args with hm₂
  set m₃ := store m₂ (executableNameField task) command with hm₃
  have hname₃ : HasString m₃ command (nameOf s) :=
    hstring (by decide) (hstring (by decide) hsplit.name)
  have hbase₃ : load m₃ (kespBaseField task) = task + BitVec.ofNat 32 (pkmSize - 1) := by
    have h₁ : load m₁ (kespBaseField task) = load m₀ (kespBaseField task) :=
      load_offset (by decide) fun b _ hhi => hin b (by simp only [pkmSize]; omega)
    rw [hm₃, executableNameField, kespBaseField, load_store_field (by decide) (by decide)
      (by decide),
      hm₂, argsField, load_store_field (by decide) (by decide) (by decide)]
    exact h₁.trans (load_store _ _ _)
  -- `kesp_base` goes down by the length of the name
  have hat := top_sub task hlt
  set nameAt := task + BitVec.ofNat 32 (pkmSize - 1 - n) with hnameAt
  set m₄ := store m₃ (kespBaseField task) nameAt with hm₄
  have hname₄ : HasString m₄ command (nameOf s) := hstring (by decide) hname₃
  have hcopy : strcpy nameAt command m₄ = storeBytes (nameOf s ++ [0]) nameAt m₄ := by
    refine strcpy_eq hname₄ (by simp only [pkmSize] at hlt; omega) fun i hi j hj => ?_
    rw [hnameAt, ← add_ofNat_add]
    exact h.apart (by omega) (by simp only [pkmSize] at hlt ⊢; omega)
  set m₅ := storeBytes (nameOf s ++ [0]) nameAt m₄ with hm₅
  have hk : sizeofTask ≤ pkmSize - 1 - n := by omega
  have hroom : pkmSize - 1 - n + (nameOf s).length + 1 ≤ pkmSize := by omega
  refine ⟨m₁, args, store m₅ (executableNameField task) nameAt, hsplit, ?_, ?_, ?_⟩
  · intro b hb hout
    rw [hsame b hb]
    exact store_field_outside (by decide) (by decide) hout
  · have htop : task + BitVec.ofNat 32 pkmSize - 1#32 = task + BitVec.ofNat 32 (pkmSize - 1) := by
      show task + BitVec.ofNat 32 (pkmSize - 1 + 1) - BitVec.ofNat 32 1 = _
      rw [add_ofNat_add]
      exact BitVec.add_sub_cancel _ _
    simp only [storeName, htop, ← hm₀, hparse, ← hm₂, ← hm₃]
    rw [show load m₃ (executableNameField task) = command from load_store _ _ _,
      strlen_eq hname₃ (by simp only [pkmSize] at hlt; omega), hbase₃, hat, ← hm₄,
      show load m₄ (kespBaseField task) = nameAt from load_store _ _ _]
    have hfield : load m₄ (executableNameField task) = command := by
      rw [hm₄, kespBaseField, executableNameField,
        load_store_field (by decide) (by decide) (by decide)]
      exact load_store _ _ _
    rw [hfield, hcopy]
  · refine ⟨load_store _ _ _, ?_, ?_, ?_, fun b hb => ?_⟩
    · rw [executableNameField, argsField, load_store_field (by decide) (by decide) (by decide), hm₅,
        hnameAt, storeString_field (by decide) hk hroom, hm₄, kespBaseField,
        load_store_field (by decide) (by decide) (by decide), hm₃, executableNameField,
        load_store_field (by decide) (by decide) (by decide)]
      exact load_store _ _ _
    · rw [executableNameField, kespBaseField, load_store_field (by decide) (by decide) (by decide),
        hm₅,
        hnameAt, storeString_field (by decide) hk hroom]
      exact load_store _ _ _
    · have hstored : HasString m₅ nameAt (nameOf s) :=
        hasString_storeBytes _ hsplit.name.ne_zero (by simp only [pkmSize] at hlt; omega)
      exact HasString.store_below hstored (by decide) hk hroom
    · have hfar : ∀ {M : Mem} {o : ℕ} {w : BitVec 32}, 4 ≤ o → o + 4 ≤ sizeofTask →
          store M (task + BitVec.ofNat 32 o) w b = M b :=
        fun h4 ho => store_field_outside h4 ho hb
      exact (hfar (by decide) (by decide)).trans ((storeString_outside hk hroom hb).trans
        ((hfar (by decide) (by decide)).trans ((hfar (by decide) (by decide)).trans
          (hfar (by decide) (by decide)))))

/-- The arguments are still behind the split when the name has been copied. -/
theorem CommandAt.argsString (h : CommandAt m task command s) {m₁ m' : Mem} {args : BitVec 32}
    (hsplit : SplitCommand command s m₁ args) (hname : NameStored task (nameOf s) args m₁ m')
    (hA : argsOf s = some A) : HasString m' args A := by
  obtain ⟨-, hargs, hlen, hstring⟩ := hsplit.args A hA
  refine hstring.congr A fun i hi => hname.outside _ (Or.inr ?_)
  rw [hargs, ← add_ofNat_add]
  exact h.outside _ (by omega)

/-- A command without arguments: nothing more is copied. -/
theorem storeArgs_none {args : BitVec 32} {m₁ m' : Mem}
    (hname : NameStored task (nameOf s) args m₁ m') (h0 : args = 0) :
    storeArgs task m' = (m', none) := by
  have hzero : ¬ load m' (argsField task) ≠ 0 := by
    rw [hname.argsField, h0]
    exact fun hne => hne rfl
  exact if_neg hzero

/-- **The copy of the arguments**: it ends on the first byte of the name. -/
theorem storeArgs_some (h : CommandAt m task command s) {m₁ m' : Mem} {args : BitVec 32}
    (hsplit : SplitCommand command s m₁ args) (hname : NameStored task (nameOf s) args m₁ m')
    (hA : argsOf s = some A) {argsAt : BitVec 32}
    (hat : argsAt = task + BitVec.ofNat 32 (pkmSize - 1 - (nameOf s).length) -
      BitVec.ofNat 32 A.length) :
    storeArgs task m' = (store (strcpy argsAt args (store m' (kespBaseField task) argsAt))
      (argsField task) argsAt, some argsAt) := by
  have hstring := h.argsString hsplit hname hA
  obtain ⟨hne, -, hlen, -⟩ := hsplit.args A hA
  have hlt := h.noWrap
  have hload : load m' (argsField task) ≠ 0 := by
    rw [hname.argsField]
    exact hne
  have hfield : load (store m' (kespBaseField task) argsAt) (argsField task) = args := by
    rw [kespBaseField, AuroraOS.argsField, load_store_field (by decide) (by decide) (by decide)]
    exact hname.argsField
  have htemp : load m' (kespBaseField task) - BitVec.ofNat 32 (Memory.strlen m' args) = argsAt := by
    rw [hname.kespBase, strlen_eq hstring (by omega), hat]
  rw [storeArgs, if_pos hload, hname.argsField]
  simp only [htemp, hfield, show load (store m' (kespBaseField task) argsAt) (kespBaseField task) =
    argsAt from load_store _ _ _]

/-! ## The layout -/

/-- The number of bytes that the arguments take above `kesp_base`. -/
def argsLength (s : List UInt8) : ℕ := (argsOf s).elim 0 List.length

/-- The strings fit between the end of `task_t` and the end of the memory of the task. -/
def Fits (s : List UInt8) : Prop := (nameOf s).length + argsLength s + sizeofTask < pkmSize

instance (s : List UInt8) : Decidable (Fits s) := inferInstanceAs (Decidable (_ < _))

/-- `kesp_base` behind the copies. -/
def kespBaseOf (task : BitVec 32) (s : List UInt8) : BitVec 32 :=
  task + BitVec.ofNat 32 (pkmSize - 1 - (nameOf s).length - argsLength s)

/-- The place of the name. -/
def nameAddr (task : BitVec 32) (s : List UInt8) : BitVec 32 :=
  task + BitVec.ofNat 32 (pkmSize - 1 - (nameOf s).length)

/-- What `system_execute` has stored for a command that fits.  With arguments, the first byte
of the name is their NUL. -/
structure Stored (m : Mem) (task command : BitVec 32) (s : List UInt8) (r : StoredStrings) :
    Prop where
  nameAt : r.nameAt = nameAddr task s
  nameField : load r.mem (executableNameField task) = nameAddr task s
  kespBase : load r.mem (kespBaseField task) = kespBaseOf task s
  noArgs : argsOf s = none →
    load r.mem (argsField task) = 0 ∧ HasString r.mem (nameAddr task s) (nameOf s)
  args : ∀ A, argsOf s = some A → load r.mem (argsField task) = kespBaseOf task s ∧
    HasString r.mem (kespBaseOf task s) A ∧ r.mem (nameAddr task s) = 0
  outside : ∀ b : BitVec 32, (∀ i ≤ s.length, b ≠ command + BitVec.ofNat 32 i) →
    LeftAlone task b → r.mem b = m b

/-- The store of `kesp`, for another field. -/
theorem load_store_kesp {o : ℕ} {w : BitVec 32} (ho : o + 4 ≤ sizeofTask)
    (hne : 28 ≤ o ∨ o + 4 ≤ 24) :
    load (store m (kespField task) w) (task + BitVec.ofNat 32 o) =
      load m (task + BitVec.ofNat 32 o) :=
  load_store_field (by decide) ho hne


/-- The two copies put together. -/
theorem storeStrings_eq {m₁ m₂ : Mem} {nameAt : BitVec 32} {argsAt : Option (BitVec 32)}
    (hname : storeName task command m = (m₁, nameAt)) (hargs : storeArgs task m₁ = (m₂, argsAt)) :
    storeStrings task command m =
      { mem := store m₂ (kespField task) (load m₂ (kespBaseField task))
        nameAt := nameAt
        argsAt := argsAt } := by
  rw [storeStrings]
  simp only [hname, hargs]

theorem storeStrings_none (h : CommandAt m task command s) (hfits : Fits s)
    (hnone : argsOf s = none) :
    Stored m task command s (storeStrings task command m) := by
  have hn : (nameOf s).length + sizeofTask < pkmSize := by
    rw [Fits] at hfits
    omega
  obtain ⟨m₁, args, m', hsplit, hsame, hstore, hname⟩ := storeName_spec h hn
  have hlength : argsLength s = 0 := by
    rw [argsLength, hnone, Option.elim_none]
  have hbase : kespBaseOf task s = task + BitVec.ofNat 32 (pkmSize - 1 - (nameOf s).length) := by
    rw [kespBaseOf, hlength, Nat.sub_zero]
  rw [storeStrings_eq hstore (storeArgs_none hname (hsplit.noArgs hnone))]
  refine ⟨rfl, (load_store_kesp (by decide) (by decide)).trans hname.nameField, ?_,
    fun _ => ⟨?_, ?_⟩, fun A hA => ?_, fun b hb hout => ?_⟩
  · rw [hbase]
    exact (load_store_kesp (by decide) (by decide)).trans hname.kespBase
  · exact (load_store_kesp (by decide) (by decide)).trans
      (hname.argsField.trans (hsplit.noArgs hnone))
  · exact HasString.store_below hname.name (by decide) (by omega) (by omega)
  · rw [hnone] at hA
    cases hA
  · show store m' (kespField task) _ b = m b
    rw [kespField, store_field_outside (by decide) (by decide) hout, hname.outside b hout,
      hsame b hb hout]

/-- The address of arguments that fit. -/
theorem kespBaseOf_some (hA : argsOf s = some A) (hfits : Fits s) (task : BitVec 32) :
    kespBaseOf task s = task + BitVec.ofNat 32 (pkmSize - 1 - (nameOf s).length) -
      BitVec.ofNat 32 A.length := by
  have hlength : argsLength s = A.length := by
    rw [argsLength, hA, Option.elim_some]
  rw [Fits, hlength] at hfits
  have hsum : pkmSize - 1 - (nameOf s).length =
      pkmSize - 1 - (nameOf s).length - A.length + A.length := by omega
  rw [kespBaseOf, hlength]
  conv_rhs => rw [hsum, add_ofNat_add]
  exact (BitVec.add_sub_cancel _ _).symm

theorem storeStrings_some (h : CommandAt m task command s) (hfits : Fits s)
    (hA : argsOf s = some A) :
    Stored m task command s (storeStrings task command m) := by
  have hbase := kespBaseOf_some hA hfits task
  have hlength : argsLength s = A.length := by
    rw [argsLength, hA, Option.elim_some]
  have hbase_k : kespBaseOf task s =
      task + BitVec.ofNat 32 (pkmSize - 1 - (nameOf s).length - A.length) := by
    rw [kespBaseOf, hlength]
  rw [Fits, hlength] at hfits
  obtain ⟨m₁, args, m', hsplit, hsame, hstore, hname⟩ := storeName_spec h (by omega)
  have hstring := h.argsString hsplit hname hA
  obtain ⟨-, hargs, hlen, -⟩ := hsplit.args A hA
  set base := kespBaseOf task s with hbase_def
  set k := pkmSize - 1 - (nameOf s).length - A.length with hk_def
  have hk : sizeofTask ≤ k := by omega
  have hroom : k + A.length + 1 ≤ pkmSize := by omega
  have hargs_out : ∀ i ≤ A.length, pkmSize ≤ (args + BitVec.ofNat 32 i - task).toNat := by
    intro i hi
    rw [hargs, ← add_ofNat_add]
    exact h.outside _ (by omega)
  set m₂ := store m' (kespBaseField task) base with hm₂
  have hcopy : strcpy base args m₂ = storeBytes (A ++ [0]) (task + BitVec.ofNat 32 k) m₂ := by
    rw [hbase_k]
    refine strcpy_eq (HasString.store_field hstring (by decide) hargs_out)
      (by simp only [pkmSize] at hroom; omega) fun i hi j hj he => ?_
    have hout := hargs_out j (by omega)
    rw [← he, ← add_ofNat_add, toNat_add_sub task (by simp only [pkmSize] at hroom; omega)] at hout
    omega
  have hsome := storeArgs_some h hsplit hname hA hbase
  rw [← hm₂, hcopy] at hsome
  set m₃ := storeBytes (A ++ [0]) (task + BitVec.ofNat 32 k) m₂ with hm₃
  have hload : load (store m₃ (argsField task) base) (kespBaseField task) = base := by
    rw [argsField, kespBaseField, load_store_field (by decide) (by decide) (by decide), hm₃,
      storeString_field (by decide) hk hroom]
    exact load_store _ _ _
  rw [storeStrings_eq hstore hsome]
  refine ⟨rfl, ?_, ?_, fun hno => ?_, fun A' hA' => ?_, fun b hb hout => ?_⟩
  · refine (load_store_kesp (by decide) (by decide)).trans ?_
    rw [argsField, load_store_field (by decide) (by decide) (by decide), hm₃,
      storeString_field (by decide) hk hroom, hm₂, kespBaseField,
      load_store_field (by decide) (by decide) (by decide)]
    exact hname.nameField
  · rw [hload]
    exact (load_store_kesp (by decide) (by decide)).trans hload
  · rw [hA] at hno
    cases hno
  · obtain rfl : A = A' := Option.some.inj (hA.symm.trans hA')
    have hstored : HasString m₃ (task + BitVec.ofNat 32 k) A :=
      hasString_storeBytes A hstring.ne_zero (by simp only [pkmSize] at hroom; omega)
    have hfinal : HasString (store (store m₃ (argsField task) base) (kespField task)
        (load (store m₃ (argsField task) base) (kespBaseField task)))
          (task + BitVec.ofNat 32 k) A :=
      HasString.store_below (HasString.store_below hstored (by decide) hk hroom)
        (by decide) hk hroom
    refine ⟨(load_store_kesp (by decide) (by decide)).trans (load_store _ _ _), ?_, ?_⟩
    · exact (congrArg (fun a => HasString _ a A) hbase_k).mpr hfinal
    · have hadd : nameAddr task s = task + BitVec.ofNat 32 k + BitVec.ofNat 32 A.length := by
        rw [nameAddr, ← add_ofNat_add, hk_def]
        congr 2
        omega
      have hnul := hfinal.drop A (Nat.le_refl _)
      rw [List.drop_length] at hnul
      rw [hadd]
      exact hnul
  · show store (store m₃ (argsField task) base) (kespField task) _ b = m b
    rw [kespField, store_field_outside (by decide) (by decide) hout, argsField,
      store_field_outside (by decide) (by decide) hout, hm₃, storeString_outside hk hroom hout, hm₂,
      kespBaseField, store_field_outside (by decide) (by decide) hout, hname.outside b hout,
      hsame b hb hout]

/-- **A command that fits** is stored in the memory of the task behind `valid`, and nothing is
written outside of it but the NUL in the command. -/
theorem storeStrings_stored (h : CommandAt m task command s) (hfits : Fits s) :
    Stored m task command s (storeStrings task command m) := by
  rcases join_name_args s with ⟨hnone, -, -⟩ | ⟨A, hA, -⟩
  · exact storeStrings_none h hfits hnone
  · exact storeStrings_some h hfits hA

/-! ## The result -/

/-- The strings are laid out safely: they read back, their bytes are apart from each other,
and they lie in the memory of the task above `kesp_base`, which is above `task_t`. -/
structure SafeLayout (task : BitVec 32) (s : List UInt8) (r : StoredStrings) : Prop where
  name : HasString r.mem (load r.mem (executableNameField task)) (nameOf s)
  noArgs : argsOf s = none → load r.mem (argsField task) = 0
  args : ∀ A, argsOf s = some A → HasString r.mem (load r.mem (argsField task)) A
  disjoint : ∀ A a, argsOf s = some A → r.argsAt = some a →
    Apart r.nameAt a ((nameOf s).length + 1) (A.length + 1)
  nameInside : ∀ i ≤ (nameOf s).length,
    (load r.mem (kespBaseField task) - task).toNat ≤ (r.nameAt + BitVec.ofNat 32 i - task).toNat ∧
      (r.nameAt + BitVec.ofNat 32 i - task).toNat < pkmSize
  argsInside : ∀ A a, argsOf s = some A → r.argsAt = some a → ∀ i ≤ A.length,
    (load r.mem (kespBaseField task) - task).toNat ≤ (a + BitVec.ofNat 32 i - task).toNat ∧
      (a + BitVec.ofNat 32 i - task).toNat < pkmSize
  kespBase : sizeofTask ≤ (load r.mem (kespBaseField task) - task).toNat

/-- The command lines of the two kernel tasks. -/
def kernelCommands : List (List UInt8) := [[105, 110, 105, 116, 100], [105, 100, 108, 101]]

/-- A command that `system_execute` accepts: its name is that of a file, or it is the
command of a kernel task. -/
def AcceptsCommand (img : FsImage) (s : List UInt8) : Prop :=
  (img.readDentryByName (nameOf s)).isSome = true ∨ s ∈ kernelCommands

/-- The name of a command that is accepted is short. -/
theorem AcceptsCommand.length_name {img : FsImage} (h : AcceptsCommand img s)
    (hs : HasString m command s) : (nameOf s).length ≤ fileNameLength := by
  rcases h with h | h
  · have hzero : ∀ c ∈ nameOf s, c ≠ 0 := by
      intro c hc
      refine hs.ne_zero c ?_
      rcases join_name_args s with ⟨-, hjoin, -⟩ | ⟨A, -, hjoin⟩
      · rw [hjoin]
        exact hc
      · rw [hjoin]
        exact List.mem_append_left _ hc
    have hlen : AuroraOS.strlen (nameOf s) = (nameOf s).length := by
      rw [AuroraOS.strlen, List.takeWhile_eq_self_iff.mpr fun c hc => by simpa using hzero c hc]
    by_contra hlong
    unfold FsImage.readDentryByName at h
    rw [hlen, if_pos (Nat.not_le.mp hlong)] at h
    cases h
  · have hle : s.length ≤ fileNameLength := by
      simp only [kernelCommands, List.mem_cons, List.not_mem_nil, or_false] at h
      rcases h with rfl | rfl <;> decide
    exact Nat.le_trans (length_nameOf_le s) hle

/-- A command without arguments is laid out safely. -/
theorem safeLayout_none (h : CommandAt m task command s) (hfits : Fits s)
    (hnone : argsOf s = none) :
    SafeLayout task s (storeStrings task command m) := by
  have hst := storeStrings_stored h hfits
  obtain ⟨hargs, hname⟩ := hst.noArgs hnone
  have hlength : argsLength s = 0 := by
    rw [argsLength, hnone, Option.elim_none]
  have hbase : load (storeStrings task command m).mem (kespBaseField task) = nameAddr task s := by
    rw [hst.kespBase, kespBaseOf, hlength, Nat.sub_zero, nameAddr]
  rw [Fits, hlength] at hfits
  have hoffset : ∀ i ≤ (nameOf s).length, (nameAddr task s + BitVec.ofNat 32 i - task).toNat =
      pkmSize - 1 - (nameOf s).length + i := by
    intro i hi
    rw [nameAddr, ← add_ofNat_add, toNat_add_sub task (by simp only [pkmSize] at *; omega)]
  have hlow : (nameAddr task s - task).toNat = pkmSize - 1 - (nameOf s).length := by
    rw [nameAddr, toNat_add_sub task (by simp only [pkmSize]; omega)]
  have hvacuous : ∀ {p : Prop} {A : List UInt8}, argsOf s = some A → p := by
    intro p A hA
    rw [hnone] at hA
    cases hA
  refine ⟨by rw [hst.nameField]; exact hname, fun _ => hargs, fun A hA => hvacuous hA,
    fun A a hA => hvacuous hA, fun i hi => ?_, fun A a hA => hvacuous hA, ?_⟩
  · rw [hbase, hst.nameAt, hoffset i hi, hlow]
    exact ⟨Nat.le_add_right _ _, by omega⟩
  · rw [hbase, hlow]
    omega

/-- With arguments the strings are never apart: the NUL of the arguments is the first byte
of the name. -/
theorem not_safeLayout_some (h : CommandAt m task command s)
    (hn : (nameOf s).length + sizeofTask < pkmSize) (hA : argsOf s = some A) :
    ¬ SafeLayout task s (storeStrings task command m) := by
  obtain ⟨m₁, args, m', hsplit, -, hstore, hname⟩ := storeName_spec h hn
  rw [storeStrings_eq hstore (storeArgs_some h hsplit hname hA rfl)]
  intro hsafe
  have hapart := hsafe.disjoint A _ hA rfl 0 (Nat.succ_pos _) A.length (Nat.lt_succ_self _)
  rw [BitVec.add_zero, BitVec.sub_add_cancel] at hapart
  exact hapart rfl

/-- **The strings of an accepted command are laid out safely** exactly when there is no space
in it. -/
theorem strings_laid_out_iff (img : FsImage) (h : CommandAt m task command s)
    (hacc : AcceptsCommand img s) :
    SafeLayout task s (storeStrings task command m) ↔ 32 ∉ s := by
  have hshort := hacc.length_name h.string
  have hn : (nameOf s).length + sizeofTask < pkmSize := by
    simp only [fileNameLength, sizeofTask, pkmSize] at *
    omega
  rcases join_name_args s with ⟨hnone, -, hspace⟩ | ⟨A, hA, hjoin⟩
  · refine iff_of_true (safeLayout_none h ?_ hnone) hspace
    rw [Fits, argsLength, hnone, Option.elim_none, Nat.add_zero]
    exact hn
  · refine iff_of_false (not_safeLayout_some h hn hA) fun hspace => hspace ?_
    rw [hjoin]
    exact List.mem_append_right _ List.mem_cons_self

/-- A memory with one string, at an address of the user. -/
def userText (s : List UInt8) : Mem := storeBytes (s ++ [0]) 0x08048000#32 fun _ => 0

theorem commandAt_userText {s : List UInt8} (hs : ∀ c ∈ s, c ≠ 0) (hlen : s.length ≤ 0x10000)
    {x : ℕ} (hx : x < 10) : CommandAt (userText s) (taskSlot x) 0x08048000#32 s where
  string := hasString_storeBytes s hs (by omega)
  noWrap := by
    rw [show (0x08048000#32).toNat = 0x08048000 from rfl]
    omega
  outside := by
    intro i hi
    rw [taskSlot, pkmStartingAddr, pkmSize]
    bv_omega

theorem strings_laid_out_iff_cat :
    SafeLayout (taskSlot 2) catCommand
      (storeStrings (taskSlot 2) 0x08048000#32 (userText catCommand)) ↔
      32 ∉ catCommand :=
  strings_laid_out_iff programs
    (commandAt_userText (by decide +kernel) (by decide +kernel) (by decide))
    (Or.inl (by decide +kernel))

/-- The command line `cat x`. -/
def catX : List UInt8 := [99, 97, 116, 32, 120]

/-- **The name of a command with arguments is lost**: of `cat x` the empty name reads back. -/
theorem catX_name_lost :
    CommandAt (userText catX) (taskSlot 2) 0x08048000#32 catX ∧ AcceptsCommand programs catX ∧
      ¬ SafeLayout (taskSlot 2) catX (storeStrings (taskSlot 2) 0x08048000#32 (userText catX)) ∧
      HasString (storeStrings (taskSlot 2) 0x08048000#32 (userText catX)).mem
        (load (storeStrings (taskSlot 2) 0x08048000#32 (userText catX)).mem
          (executableNameField (taskSlot 2))) [] := by
  have hc : CommandAt (userText catX) (taskSlot 2) 0x08048000#32 catX :=
    commandAt_userText (by decide +kernel) (by decide +kernel) (by decide)
  have hA : argsOf catX = some [120] := by decide
  refine ⟨hc, Or.inl (by decide +kernel), not_safeLayout_some hc (by decide) hA, ?_⟩
  have hst := storeStrings_stored hc (by decide)
  rw [hst.nameField]
  exact (hst.args [120] hA).2.2

end AuroraOS
