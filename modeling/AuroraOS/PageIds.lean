/-
# The set of page ids in use

`task/task_paging.c`, seen from its callers: `page_id_running` stands for the set of page ids in
use, and any sequence of calls with any arguments acts on this set.  Each function checks its
argument in its own way: `task_paging_deallocate` lets negative numbers through and
`task_paging_set` the number 10, and only these leave the array.
-/
import AuroraOS.Isolation

namespace AuroraOS

open Machine

/-! ## The calls -/

/-- A call of one of the functions of `task_paging.c`.  `allocate` is `task_get_free_page_id` with
the marking that follows it in `task_paging_allocate_and_set`. -/
inductive PageCall where
  | allocate
  | allocateAndSet (img : FsImage) (taskName : List UInt8) (stack : ℕ → UInt8)
  | deallocate (pageId : ℤ)
  | set (pageId : ℤ)

namespace Paging

variable (p : Paging)

/-- `page_id_running[page_id] = PAGE_ID_USED; page_id_count++`. -/
def marked (i : Fin 10) : Paging :=
  { p with pageIdRunning := Function.update p.pageIdRunning i true
           pageIdCount := p.pageIdCount + 1 }

/-- `page_id_running[page_id] = PAGE_ID_FREE; page_id_count--`. -/
def released (i : Fin 10) : Paging :=
  { p with pageIdRunning := Function.update p.pageIdRunning i false
           pageIdCount := p.pageIdCount - 1 }

/-- `task_paging_deallocate` with the value it returns. -/
def deallocateCall (pageId : ℤ) : Except Fault (ℤ × Paging) :=
  if (taskMaxCount : ℤ) ≤ pageId then .ok (-1, p)
  else do
    let i ← Paging.running pageId
    .ok (if !p.pageIdRunning i then (-1, p) else (0, p.released i))

/-- `task_paging_set` with the value it returns. -/
def setCall (pageId : ℤ) : Except Fault (ℤ × Paging) :=
  if pageId < 0 ∨ pageId > taskMaxCount then .ok (-1, p)
  else do
    let i ← Paging.running pageId
    .ok (if !p.pageIdRunning i then (-1, p) else (0, p.taskSetImgPaging pageId))

/-- The value that a call returns, and what it leaves behind. -/
def call : PageCall → Except Fault (ℤ × Paging)
  | .allocate =>
    .ok (match p.taskGetFreePageId with
      | none => (-1, p)
      | some pageId => (pageId.val, p.marked pageId))
  | .allocateAndSet img taskName stack =>
    .ok (p.taskPagingAllocateAndSet img taskName stack).swap
  | .deallocate pageId => p.deallocateCall pageId
  | .set pageId => p.setCall pageId

/-- Without the value, these are the functions of the kernel. -/
theorem deallocateCall_snd (pageId : ℤ) :
    p.taskPagingDeallocate pageId = (p.deallocateCall pageId).map Prod.snd := by
  unfold taskPagingDeallocate deallocateCall
  split
  · rfl
  · cases Paging.running pageId with
    | error e => rfl
    | ok i => cases h : p.pageIdRunning i <;> simp [h, released, Except.map]

theorem setCall_snd (pageId : ℤ) :
    p.taskPagingSet pageId = (p.setCall pageId).map Prod.snd := by
  unfold taskPagingSet setCall
  split
  · rfl
  · cases Paging.running pageId with
    | error e => rfl
    | ok i => cases h : p.pageIdRunning i <;> simp [h, Except.map]

/-! ## The set -/

/-- The page ids in use. -/
def usedIds : Finset (Fin 10) := Finset.univ.filter fun i => p.pageIdRunning i = true

/-- What a call with the value `ret` does, in terms of the set. -/
inductive Obeys : PageCall → ℤ → Paging → Prop where
  | full : p.usedIds = Finset.univ → Obeys .allocate (-1) p
  | taken (i : Fin 10) (p' : Paging) : i ∉ p.usedIds → (∀ j, j ∉ p.usedIds → i ≤ j) →
      p'.usedIds = insert i p.usedIds → p'.imgEntry = p.imgEntry → Obeys .allocate i.val p'
  | refused (img : FsImage) (taskName : List UInt8) (stack : ℕ → UInt8) (ret : ℤ) : ret < 0 →
      Obeys (.allocateAndSet img taskName stack) ret p
  | mapped (img : FsImage) (taskName : List UInt8) (stack : ℕ → UInt8) (i : Fin 10)
      (p' : Paging) : i ∉ p.usedIds → (∀ j, j ∉ p.usedIds → i ≤ j) →
      p'.usedIds = insert i p.usedIds → p'.imgEntry = imgEntryOf i.val →
      Obeys (.allocateAndSet img taskName stack) i.val p'
  | released (i : Fin 10) (p' : Paging) : i ∈ p.usedIds → p'.usedIds = p.usedIds.erase i →
      p'.imgEntry = p.imgEntry → Obeys (.deallocate i.val) 0 p'
  | notReleased (pageId : ℤ) : (∀ i ∈ p.usedIds, (i.val : ℤ) ≠ pageId) →
      Obeys (.deallocate pageId) (-1) p
  | set (i : Fin 10) (p' : Paging) : i ∈ p.usedIds → p'.usedIds = p.usedIds →
      p'.imgEntry = imgEntryOf i.val → Obeys (.set i.val) 0 p'
  | notSet (pageId : ℤ) : (∀ i ∈ p.usedIds, (i.val : ℤ) ≠ pageId) → Obeys (.set pageId) (-1) p

/-- `page_id_count` counts the page ids in use. -/
def Counted : Prop := p.pageIdCount = p.usedIds.card

variable {p} {i : Fin 10}

theorem mem_usedIds : i ∈ p.usedIds ↔ p.pageIdRunning i = true := by
  simp [usedIds]

theorem usedIds_marked (p : Paging) (i : Fin 10) : (p.marked i).usedIds = insert i p.usedIds := by
  ext j
  rw [mem_usedIds, Finset.mem_insert, mem_usedIds, marked]
  by_cases h : j = i
  · simp [h]
  · simp [h]

theorem usedIds_released (p : Paging) (i : Fin 10) :
    (p.released i).usedIds = p.usedIds.erase i := by
  ext j
  rw [mem_usedIds, Finset.mem_erase, mem_usedIds, released]
  by_cases h : j = i
  · simp [h]
  · simp [h]

theorem counted_marked (h : p.Counted) (hi : i ∉ p.usedIds) : (p.marked i).Counted := by
  rw [Counted, usedIds_marked, Finset.card_insert_of_notMem hi, Nat.cast_add, ← h]
  rfl

theorem counted_released (h : p.Counted) (hi : i ∈ p.usedIds) : (p.released i).Counted := by
  have hcard := Finset.card_erase_add_one hi
  rw [Counted] at h
  rw [Counted, usedIds_released]
  show p.pageIdCount - 1 = _
  omega

/-! ## One call -/

/-- `task_get_free_page_id` finds the least page id that is not in use. -/
theorem taskGetFreePageId_least (h : p.taskGetFreePageId = some i) :
    i ∉ p.usedIds ∧ ∀ j, j ∉ p.usedIds → i ≤ j := by
  obtain ⟨hi, as, bs, hsplit, has⟩ := List.find?_eq_some_iff_append.mp h
  refine ⟨?_, fun j hj => ?_⟩
  · rw [mem_usedIds]
    simpa using hi
  · -- the ids before `i` are in use, so `j` stands behind them
    have hnot : j ∉ as := by
      intro hmem
      have hused := has j hmem
      rw [mem_usedIds] at hj
      simp [hj] at hused
    have hmem : j ∈ as ++ i :: bs := hsplit ▸ List.mem_finRange j
    have hsorted : (as ++ i :: bs).Pairwise (· < ·) := hsplit ▸ List.pairwise_lt_finRange 10
    rcases List.mem_append.mp hmem with hmem | hmem
    · exact absurd hmem hnot
    · rcases List.mem_cons.mp hmem with rfl | hmem
      · exact le_rfl
      · exact (List.rel_of_pairwise_cons (List.pairwise_append.mp hsorted).2.1 hmem).le

theorem taskGetFreePageId_eq_none (h : p.taskGetFreePageId = none) :
    p.usedIds = Finset.univ := by
  rw [Finset.eq_univ_iff_forall]
  intro i
  have hused := List.find?_eq_none.mp h i (List.mem_finRange i)
  rw [mem_usedIds]
  simpa using hused

/-- A number is an index of the array or outside of it. -/
theorem index_or_outside (pageId : ℤ) :
    (∃ i : Fin 10, (i.val : ℤ) = pageId) ∨ (pageId < 0 ∨ (taskMaxCount : ℤ) ≤ pageId) := by
  by_cases h : 0 ≤ pageId ∧ pageId < 10
  · exact Or.inl ⟨⟨pageId.toNat, by omega⟩, by simp [h.1]⟩
  · right
    show pageId < 0 ∨ (10 : ℤ) ≤ pageId
    omega

end Paging

/-- The check of the function keeps the access inside the array. -/
def PageCall.InBounds : PageCall → Prop
  | .allocate => True
  | .allocateAndSet _ _ _ => True
  | .deallocate pageId => 0 ≤ pageId
  | .set pageId => pageId ≠ taskMaxCount

namespace Paging

variable {p p' : Paging} {i : Fin 10}

/-- An id outside of the array is not in use. -/
theorem not_used_of_outside {pageId : ℤ} (h : pageId < 0 ∨ (taskMaxCount : ℤ) ≤ pageId) :
    ∀ i ∈ p.usedIds, (i.val : ℤ) ≠ pageId := by
  intro i _ he
  have hlt := i.isLt
  have h' : pageId < 0 ∨ (10 : ℤ) ≤ pageId := h
  omega

theorem not_used_of_free (h : i ∉ p.usedIds) : ∀ j ∈ p.usedIds, (j.val : ℤ) ≠ (i.val : ℤ) := by
  intro j hj he
  have hij : j = i := Fin.ext (by omega)
  exact h (hij ▸ hj)

/-- What a call leaves behind obeys the contract. -/
def CallsRight (p : Paging) (c : PageCall) : Prop :=
  ∃ ret p', p.call c = .ok (ret, p') ∧ p.Obeys c ret p' ∧ (p.Counted → p'.Counted)

theorem call_allocate (p : Paging) : p.CallsRight .allocate := by
  cases hfree : p.taskGetFreePageId with
  | none =>
    have hcall : p.call .allocate = .ok (-1, p) := by
      rw [call, hfree]
    exact ⟨_, _, hcall, .full (taskGetFreePageId_eq_none hfree), id⟩
  | some i =>
    obtain ⟨hi, hleast⟩ := taskGetFreePageId_least hfree
    have hcall : p.call .allocate = .ok (i.val, p.marked i) := by
      rw [call, hfree]
    exact ⟨_, _, hcall, .taken i _ hi hleast (usedIds_marked p i) rfl,
      fun h => counted_marked h hi⟩

theorem call_allocateAndSet (p : Paging) (img : FsImage) (taskName : List UInt8)
    (stack : ℕ → UInt8) : p.CallsRight (.allocateAndSet img taskName stack) := by
  rcases p.allocateAndSet_cases img taskName stack with ⟨n, hn, he⟩ | ⟨i, hfree, he⟩
  · have hcall : p.call (.allocateAndSet img taskName stack) = .ok (n, p) := by
      rw [call, he]
      rfl
    exact ⟨_, _, hcall, .refused img taskName stack n hn, id⟩
  · obtain ⟨hi, hleast⟩ := taskGetFreePageId_least hfree
    have hcall : p.call (.allocateAndSet img taskName stack) = .ok (i.val, p.allocated i) := by
      rw [call, he]
      rfl
    have hused : (p.allocated i).usedIds = insert i p.usedIds := usedIds_marked p i
    exact ⟨_, _, hcall, .mapped img taskName stack i _ hi hleast hused rfl,
      fun h => counted_marked h hi⟩

theorem call_deallocate (p : Paging) {pageId : ℤ} (h : 0 ≤ pageId) :
    p.CallsRight (.deallocate pageId) := by
  rcases index_or_outside pageId with ⟨i, rfl⟩ | hout
  · have hcall : p.call (.deallocate i.val) =
        .ok (if !p.pageIdRunning i then (-1, p) else (0, p.released i)) := by
      rw [call, deallocateCall, if_neg (by show ¬ (10 : ℤ) ≤ i.val; omega), running_fin, ok_bind]
    by_cases hi : i ∈ p.usedIds
    · rw [mem_usedIds.mp hi] at hcall
      exact ⟨_, _, hcall, .released i _ hi (usedIds_released p i) rfl,
        fun h => counted_released h hi⟩
    · have hfree : p.pageIdRunning i = false := by simpa [mem_usedIds] using hi
      rw [hfree] at hcall
      exact ⟨_, _, hcall, .notReleased _ (not_used_of_free hi), id⟩
  · have hcall : p.call (.deallocate pageId) = .ok (-1, p) := by
      rw [call, deallocateCall, if_pos (hout.resolve_left (not_lt.mpr h))]
    exact ⟨_, _, hcall, .notReleased _ (not_used_of_outside hout), id⟩

theorem call_set (p : Paging) {pageId : ℤ} (h : pageId ≠ taskMaxCount) :
    p.CallsRight (.set pageId) := by
  rcases index_or_outside pageId with ⟨i, rfl⟩ | hout
  · have hcall : p.call (.set i.val) =
        .ok (if !p.pageIdRunning i then (-1, p) else (0, p.taskSetImgPaging i.val)) := by
      rw [call, setCall, if_neg (by show ¬ ((i.val : ℤ) < 0 ∨ (i.val : ℤ) > 10); omega),
        running_fin, ok_bind]
    by_cases hi : i ∈ p.usedIds
    · rw [mem_usedIds.mp hi] at hcall
      exact ⟨_, _, hcall, .set i _ hi rfl rfl, id⟩
    · have hfree : p.pageIdRunning i = false := by simpa [mem_usedIds] using hi
      rw [hfree] at hcall
      exact ⟨_, _, hcall, .notSet _ (not_used_of_free hi), id⟩
  · have hcheck : pageId < 0 ∨ pageId > taskMaxCount :=
      hout.imp_right fun hle => lt_of_le_of_ne hle h.symm
    have hcall : p.call (.set pageId) = .ok (-1, p) := by
      rw [call, setCall, if_pos hcheck]
    exact ⟨_, _, hcall, .notSet _ (not_used_of_outside hout), id⟩

/-- **A call in bounds** acts on the set. -/
theorem call_right (p : Paging) {c : PageCall} (h : c.InBounds) : p.CallsRight c := by
  cases c with
  | allocate => exact p.call_allocate
  | allocateAndSet img taskName stack => exact p.call_allocateAndSet img taskName stack
  | deallocate pageId => exact p.call_deallocate h
  | set pageId => exact p.call_set h

/-- **A call out of bounds** leaves the array. -/
theorem call_outside (p : Paging) {c : PageCall} (h : ¬ c.InBounds) :
    p.call c = .error .pageIdBounds := by
  cases c with
  | allocate => exact absurd trivial h
  | allocateAndSet img taskName stack => exact absurd trivial h
  | deallocate pageId =>
    have hneg : pageId < 0 := not_le.mp h
    have hrun : Paging.running pageId = .error .pageIdBounds := dif_neg (by omega)
    show p.deallocateCall pageId = _
    rw [deallocateCall, if_neg (by show ¬ (10 : ℤ) ≤ pageId; omega), hrun]
    rfl
  | set pageId =>
    obtain rfl : pageId = taskMaxCount := not_not.mp h
    rfl

/-! ## Runs -/

/-- One call of a run. -/
def step (p : Paging) (c : PageCall) : Except Fault Paging := (p.call c).map Prod.snd

/-- The state after `task_paging_init`, with anything in the page directory. -/
def init (entry : BitVec 32) : Paging where
  pageIdCount := 0
  pageIdRunning := fun _ => false
  imgEntry := entry

theorem init_counted (entry : BitVec 32) : (init entry).Counted := by
  have hnone : (init entry).usedIds = ∅ := by
    ext i
    simp [mem_usedIds, init]
  rw [Counted, hnone]
  rfl

theorem step_of_call {c : PageCall} {ret : ℤ} (h : p.call c = .ok (ret, p')) :
    p.step c = .ok p' := by
  rw [step, h]
  rfl

theorem CallsRight.step {c : PageCall} (h : p.CallsRight c) (hp : p.Counted) :
    ∃ p', p.step c = .ok p' ∧ p'.Counted := by
  obtain ⟨ret, p', hcall, -, hcount⟩ := h
  exact ⟨p', step_of_call hcall, hcount hp⟩

/-- A run of calls in bounds reaches its end, with the count right. -/
theorem run_counted (entry : BitVec 32) {calls : List PageCall} (h : ∀ c ∈ calls, c.InBounds) :
    ∃ p, run step (init entry) calls = .ok p ∧ p.Counted :=
  run_total (fun p _ hp hc => (p.call_right hc).step hp) (init_counted entry) (meets_of_forall h)

/-- **`page_id_running` behaves as a set of page ids** in every run of calls, as long as no
negative number is deallocated and `TASK_MAX_COUNT` is not set, and only then: every call of the
run finds its index inside the array and does what the set asks for. -/
theorem pageIds_run_iff (entry : BitVec 32) (calls : List PageCall) :
    (∀ before c after, calls = before ++ c :: after →
      ∃ p ret p', run step (init entry) before = .ok p ∧ p.call c = .ok (ret, p') ∧
        p.Obeys c ret p' ∧ p'.Counted) ↔
      ∀ c ∈ calls, c.InBounds := by
  constructor
  · intro h c hc
    obtain ⟨before, after, hsplit⟩ := List.append_of_mem hc
    obtain ⟨p, ret, p', -, hcall, -⟩ := h before c after hsplit
    by_contra hout
    rw [p.call_outside hout] at hcall
    cases hcall
  · rintro h before c after rfl
    obtain ⟨p, hrun, hp⟩ := run_counted entry fun d hd => h d (List.mem_append_left _ hd)
    have hc : c.InBounds := h c (List.mem_append_right _ List.mem_cons_self)
    obtain ⟨ret, p', hcall, hobeys, hcount⟩ := p.call_right hc
    exact ⟨p, ret, p', hrun, hcall, hobeys, hcount hp⟩

/-- **Both functions can leave the array.** -/
theorem pageIds_outside :
    run step (init 0) [.set 10] = .error .pageIdBounds ∧
      run step (init 0) [.deallocate (-1)] = .error .pageIdBounds := ⟨rfl, rfl⟩

end Paging

end AuroraOS
