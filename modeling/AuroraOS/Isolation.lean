/-
# User memory

Every valid user task holds a page id of its own, and whenever a user task runs, entry 32
of the page directory maps the frame of that page id.  The frames lie behind those of the
kernel.
-/
import AuroraOS.Effects

namespace AuroraOS

open Ring Machine

/-! ## Frames -/

/-- The entry for 128-132MB that belongs to a page id. -/
def imgEntryOf (pageId : ℤ) : BitVec 32 :=
  (BitVec.ofInt 32 (pageId + 2 + kernelPageOffset + 1) <<< 22) ||| taskImgPageFlag

/-- The 4MB of physical memory that such an entry maps. -/
def frame (entry : BitVec 32) : Set ℕ :=
  Set.Ico (entry.toNat / 2 ^ 22 * 2 ^ 22) ((entry.toNat / 2 ^ 22 + 1) * 2 ^ 22)

/-- The frames of the kernel, 4-28MB. -/
def kernelFrames : Set ℕ := Set.Ico (4 * 2 ^ 20) (28 * 2 ^ 20)

/-- The frame of the terminal buffers, 28-32MB. -/
def terminalFrame : Set ℕ := Set.Ico (28 * 2 ^ 20) (32 * 2 ^ 20)

/-- The page id `i` is that of the frame `i + 8`. -/
theorem imgEntryOf_frame : ∀ i : Fin 10, (imgEntryOf i.val).toNat / 2 ^ 22 = i.val + 8 := by
  decide +kernel

theorem disjoint_frame {i j : Fin 10} (h : i ≠ j) :
    Disjoint (frame (imgEntryOf i.val)) (frame (imgEntryOf j.val)) := by
  have hne : i.val ≠ j.val := fun he => h (Fin.ext he)
  unfold frame
  rw [imgEntryOf_frame, imgEntryOf_frame, Set.disjoint_left]
  rintro a ⟨h1, h2⟩ ⟨h3, h4⟩
  omega

theorem disjoint_frame_kernel (i : Fin 10) :
    Disjoint (frame (imgEntryOf i.val)) kernelFrames ∧
      Disjoint (frame (imgEntryOf i.val)) terminalFrame := by
  unfold frame kernelFrames terminalFrame
  rw [imgEntryOf_frame, Set.disjoint_left, Set.disjoint_left]
  constructor
  · rintro a ⟨h1, h2⟩ ⟨h3, h4⟩
    omega
  · rintro a ⟨h1, h2⟩ ⟨h3, h4⟩
    omega

/-! ## Page ids -/

namespace Paging

variable {p p' : Paging} {i : Fin 10}

theorem running_fin (i : Fin 10) : Paging.running (i.val : ℤ) = .ok i := by
  unfold Paging.running
  rw [dif_pos ⟨by omega, by omega⟩]
  rfl

/-- `task_paging_set` on a page id in use. -/
theorem taskPagingSet_used (h : p.taskPagingSet i.val = .ok p') (hi : p.pageIdRunning i = true) :
    p'.imgEntry = imgEntryOf i.val := by
  unfold taskPagingSet at h
  rw [if_neg (by show ¬ ((i.val : ℤ) < 0 ∨ (i.val : ℤ) > 10); omega), running_fin] at h
  simp only [ok_bind, hi, Bool.not_true, Bool.false_eq_true, if_false] at h
  cases h
  rfl

/-- `task_paging_deallocate` gives a page id of `page_id_running` back. -/
theorem taskPagingDeallocate_fin (p : Paging) (i : Fin 10) :
    p.taskPagingDeallocate i.val = .ok (if p.pageIdRunning i then { p with
      pageIdRunning := Function.update p.pageIdRunning i false
      pageIdCount := p.pageIdCount - 1 } else p) := by
  unfold taskPagingDeallocate
  rw [if_neg (by show ¬ (10 : ℤ) ≤ i.val; omega), running_fin, ok_bind]
  cases p.pageIdRunning i <;> rfl

theorem taskPagingDeallocate_other (h : p.taskPagingDeallocate i.val = .ok p') {j : Fin 10}
    (hj : j ≠ i) : p'.pageIdRunning j = p.pageIdRunning j := by
  rw [taskPagingDeallocate_fin] at h
  cases h
  split
  · exact Function.update_of_ne hj _ _
  · rfl

end Paging

namespace Kernel

variable {k k' k₀ : Kernel} {img : FsImage} {noise : Noise} {l : Label} {x y : TaskId}

/-- A valid task that runs a program. -/
def UserTask (k : Kernel) (x : TaskId) : Prop :=
  (k.task x).valid = true ∧ (k.task x).flags.kernelTask = false

/-- **User memory is isolated.** -/
structure Isolated (k : Kernel) : Prop where
  disjoint : ∀ x y, x ≠ y → k.UserTask x → k.UserTask y →
    Disjoint (frame (imgEntryOf (k.task x).pageId)) (frame (imgEntryOf (k.task y).pageId))
  kernel : ∀ x, k.UserTask x → Disjoint (frame (imgEntryOf (k.task x).pageId)) kernelFrames
  terminals : ∀ x, k.UserTask x → Disjoint (frame (imgEntryOf (k.task x).pageId)) terminalFrame
  mapped : k.UserTask k.running → k.paging.imgEntry = imgEntryOf k.runningTask.pageId

/-! ## The invariant -/

/-- The page ids of the user tasks are in use, and are different; kernel tasks have none. -/
structure Assigned (k : Kernel) : Prop where
  user : ∀ x, k.UserTask x →
    ∃ i : Fin 10, (k.task x).pageId = i.val ∧ k.paging.pageIdRunning i = true
  kernel : ∀ x, (k.task x).valid = true → (k.task x).flags.kernelTask = true →
    (k.task x).pageId = -1
  distinct : ∀ x y, k.UserTask x → k.UserTask y → (k.task x).pageId = (k.task y).pageId → x = y

/-- The running task finds its own frame. -/
def Mapped (k : Kernel) : Prop :=
  k.UserTask k.running → k.paging.imgEntry = imgEntryOf k.runningTask.pageId

theorem Assigned.isolated (h : k.Assigned) (hm : k.Mapped) : k.Isolated where
  disjoint := by
    intro x y hne hx hy
    obtain ⟨i, hi, -⟩ := h.user x hx
    obtain ⟨j, hj, -⟩ := h.user y hy
    rw [hi, hj]
    apply disjoint_frame
    rintro rfl
    exact hne (h.distinct x y hx hy (hi.trans hj.symm))
  kernel := by
    intro x hx
    obtain ⟨i, hi, -⟩ := h.user x hx
    rw [hi]
    exact (disjoint_frame_kernel i).1
  terminals := by
    intro x hx
    obtain ⟨i, hi, -⟩ := h.user x hx
    rw [hi]
    exact (disjoint_frame_kernel i).2
  mapped := hm

/-- Only which tasks are valid, their kind, their page ids and the ids in use count. -/
theorem Assigned.congr (h : k.Assigned)
    (hv : ∀ x, (k'.task x).valid = true → (k.task x).valid = true ∧
      (k'.task x).flags.kernelTask = (k.task x).flags.kernelTask ∧
      (k'.task x).pageId = (k.task x).pageId)
    (hp : ∀ x (i : Fin 10), k'.UserTask x → (k.task x).pageId = i.val →
      k.paging.pageIdRunning i = true → k'.paging.pageIdRunning i = true) : k'.Assigned where
  user := by
    intro x hx
    obtain ⟨hxv, hkt, hid⟩ := hv x hx.1
    obtain ⟨i, hi, hrun⟩ := h.user x ⟨hxv, hkt ▸ hx.2⟩
    exact ⟨i, hid.trans hi, hp x i hx hi hrun⟩
  kernel := by
    intro x hx hk
    obtain ⟨hxv, hkt, hid⟩ := hv x hx
    rw [hid, h.kernel x hxv (hkt ▸ hk)]
  distinct := by
    intro x y hx hy he
    obtain ⟨hxv, hxt, hxi⟩ := hv x hx.1
    obtain ⟨hyv, hyt, hyi⟩ := hv y hy.1
    exact h.distinct x y ⟨hxv, hxt ▸ hx.2⟩ ⟨hyv, hyt ▸ hy.2⟩ (hxi ▸ hyi ▸ he)

theorem Kept.userTask (h : Kept k k') (x : TaskId) : k'.UserTask x ↔ k.UserTask x := by
  unfold UserTask
  rw [h.valid x]
  exact and_congr_right fun hx => by rw [(h.held x hx).kernelTask]

theorem Kept.assigned (h : Kept k k') (ha : k.Assigned) : k'.Assigned := by
  refine ha.congr (fun x hx => ?_) (fun x i _ _ hi => by rw [h.paging, hi])
  have hx' : (k.task x).valid = true := (h.valid x).symm.trans hx
  exact ⟨hx', (h.held x hx').kernelTask, (h.held x hx').pageId⟩

theorem Kept.mapped (h : Kept k k') (hm : k.Mapped) : k'.Mapped := by
  intro hu
  rw [h.running, h.userTask] at hu
  rw [h.paging, hm hu, runningTask, runningTask, h.running, (h.held _ hu.1).pageId]

theorem vidmapped_task (k : Kernel) (t : TermId) (y : TaskId) :
    ((k.vidmapped t).task y).valid = (k.task y).valid ∧
      ((k.vidmapped t).task y).flags = (k.task y).flags ∧
        ((k.vidmapped t).task y).pageId = (k.task y).pageId := by
  show ((k.modifyTask k.running fun t => { t with vidmapEnabled := true }).task y).valid = _ ∧
    ((k.modifyTask k.running fun t => { t with vidmapEnabled := true }).task y).flags = _ ∧
      ((k.modifyTask k.running fun t => { t with vidmapEnabled := true }).task y).pageId = _
  by_cases hy : y = k.running
  · simp [hy]
  · simp [hy]

theorem Assigned.vidmapped (ha : k.Assigned) (t : TermId) : (k.vidmapped t).Assigned := by
  refine ha.congr (fun x hx => ?_) (fun x i _ _ hi => hi)
  obtain ⟨hv, hf, hid⟩ := k.vidmapped_task t x
  exact ⟨hv ▸ hx, by rw [hf], hid⟩

theorem Mapped.vidmapped (hm : k.Mapped) (t : TermId) : (k.vidmapped t).Mapped := by
  intro hu
  obtain ⟨hv, hf, hid⟩ := k.vidmapped_task t k.running
  have hu' : k.UserTask k.running := ⟨hv ▸ hu.1, by rw [← hf]; exact hu.2⟩
  exact (hm hu').trans (congrArg imgEntryOf hid.symm)

theorem Scheduled.assigned (h : Scheduled noise k k') (ha : k.Assigned) : k'.Assigned := by
  refine ha.congr (fun x hx => ?_) (fun x i _ _ hi => by rw [h.pageIdRunning, hi])
  rw [h.task] at hx ⊢
  exact ⟨hx, rfl, rfl⟩

/-- The scheduler maps the frame of the task that it switches to. -/
theorem Scheduled.mapped (h : Scheduled noise k k') (ha : k.Assigned)
    (hm : k'.running = k.running → k.Mapped) : k'.Mapped := by
  intro hu
  rw [UserTask, h.task] at hu
  rw [runningTask, h.task]
  by_cases hr : k'.running = k.running
  · rw [(h.stay hr).2.1, hr]
    rw [hr] at hu
    exact hm hr hu
  · obtain ⟨i, hi, hrun⟩ := ha.user _ hu
    obtain ⟨-, -, -, ⟨hneg, -⟩ | ⟨-, hset⟩⟩ := h.switch hr
    · omega
    · rw [hi] at hset ⊢
      exact Paging.taskPagingSet_used hset hrun

/-- A new task maps the frame of its new page id. -/
theorem Launched.assigned {a : ExecuteArgs} (h : Launched k a x k') (ha : k.Assigned) :
    k'.Assigned ∧ k'.Mapped := by
  have hold : ∀ y, y ≠ x → (k'.UserTask y ↔ k.UserTask y) := by
    intro y hy
    rw [UserTask, UserTask, (h.held hy).1, (h.held hy).2.kernelTask]
  have hkind : (k'.task x).flags.kernelTask = a.kernelTask := by rw [h.flags]; rfl
  rcases h.pages with ⟨hkt, hpaging, hid⟩ | ⟨hkt, i, hfree, hpaging, hid⟩
  · have hx : ¬ k'.UserTask x := by
      rintro ⟨-, hu⟩
      rw [hkind, hkt] at hu
      cases hu
    refine ⟨⟨fun y hy => ?_, fun y hy hk => ?_, fun y z hy hz he => ?_⟩, fun hu => ?_⟩
    · have hne : y ≠ x := fun he => hx (he ▸ hy)
      rw [hpaging, (h.held hne).2.pageId]
      exact ha.user y ((hold y hne).mp hy)
    · by_cases hne : y = x
      · rw [hne, hid]
      · rw [(h.held hne).2.pageId]
        exact ha.kernel y ((h.held hne).1 ▸ hy) ((h.held hne).2.kernelTask ▸ hk)
    · have hyne : y ≠ x := fun he => hx (he ▸ hy)
      have hzne : z ≠ x := fun he => hx (he ▸ hz)
      rw [(h.held hyne).2.pageId, (h.held hzne).2.pageId] at he
      exact ha.distinct y z ((hold y hyne).mp hy) ((hold z hzne).mp hz) he
    · rw [h.running] at hu
      exact absurd hu hx
  · have hused : ∀ (y : TaskId) (j : Fin 10), y ≠ x → k'.UserTask y → (k'.task y).pageId = j.val →
        k.paging.pageIdRunning j = true := by
      intro y j hne hy hj
      obtain ⟨j', hj', hrun⟩ := ha.user y ((hold y hne).mp hy)
      rw [(h.held hne).2.pageId, hj'] at hj
      have : j' = j := Fin.ext (by exact_mod_cast hj)
      exact this ▸ hrun
    have hnew : ∀ y, y ≠ x → k'.UserTask y → (k'.task y).pageId ≠ (k'.task x).pageId := by
      intro y hne hy he
      have := hused y i hne hy (he.trans hid)
      rw [hfree] at this
      cases this
    refine ⟨⟨fun y hy => ?_, fun y hy hk => ?_, fun y z hy hz he => ?_⟩, fun hu => ?_⟩
    · by_cases hne : y = x
      · refine ⟨i, hne ▸ hid, ?_⟩
        rw [hpaging]
        exact Function.update_self _ _ _
      · obtain ⟨j, hj, hrun⟩ := ha.user y ((hold y hne).mp hy)
        refine ⟨j, (h.held hne).2.pageId.trans hj, ?_⟩
        have hji : j ≠ i := fun he => by rw [he, hfree] at hrun; cases hrun
        rw [hpaging]
        exact (Function.update_of_ne hji _ _).trans hrun
    · by_cases hne : y = x
      · rw [hne, hkind, hkt] at hk
        cases hk
      · rw [(h.held hne).2.pageId]
        exact ha.kernel y ((h.held hne).1 ▸ hy) ((h.held hne).2.kernelTask ▸ hk)
    · by_cases hyx : y = x
      · by_cases hzx : z = x
        · rw [hyx, hzx]
        · exact absurd (hyx ▸ he).symm (hnew z hzx hz)
      · by_cases hzx : z = x
        · exact absurd (hzx ▸ he) (hnew y hyx hy)
        · rw [(h.held hyx).2.pageId, (h.held hzx).2.pageId] at he
          exact ha.distinct y z ((hold y hyx).mp hy) ((hold z hzx).mp hz) he
    · rw [runningTask, h.running, hid, hpaging]
      rfl

theorem TornDown.assigned (h : TornDown x k k') (ha : k.Assigned) : k'.Assigned := by
  refine ha.congr (fun y hy => ?_) (fun y i _ _ hi => by rw [h.paging, hi])
  have hy' := (h.valid_iff y).mp hy
  exact ⟨hy'.1, (h.held hy'.2).2.kernelTask, (h.held hy'.2).2.pageId⟩

theorem TornDown.mapped (h : TornDown x k k') (hm : k.Mapped) (hx : k.running ≠ x) :
    k'.Mapped := by
  intro hu
  rw [h.running] at hu
  have hheld := (h.held hx).2
  have hu' : k.UserTask k.running :=
    ⟨((h.valid_iff _).mp hu.1).1, hheld.kernelTask ▸ hu.2⟩
  rw [h.paging, hm hu', runningTask, runningTask, h.running, hheld.pageId]

/-- The parent finds its own frame again, and the page id of its child is free. -/
theorem ToParent.assigned {k₁ : Kernel} {p : TaskId} {status : BitVec 32} (ht : TornDown x k k₁)
    (h : ToParent p status x k₁ k') (ha : k.Assigned) : k'.Assigned ∧ k'.Mapped := by
  obtain ⟨q, hfree, hset⟩ := h.paging
  rw [ht.pageId] at hfree
  have ha₁ := ht.assigned ha
  cases hkt : (k.task x).flags.kernelTask with
  | true =>
    rw [ha.kernel x ht.valid hkt] at hfree
    cases hfree
  | false =>
    obtain ⟨i, hi, -⟩ := ha.user x ⟨ht.valid, hkt⟩
    rw [hi] at hfree
    have hids : k'.paging.pageIdRunning = q.pageIdRunning := by
      rcases hset with ⟨-, he⟩ | ⟨-, hs⟩
      · rw [he]
      · exact (taskPagingSet_ids hs).1
    have hother : ∀ (y : TaskId) (j : Fin 10), k₁.UserTask y → (k₁.task y).pageId = j.val →
        q.pageIdRunning j = k₁.paging.pageIdRunning j := by
      intro y j hy hj
      apply Paging.taskPagingDeallocate_other hfree
      rintro rfl
      have hne := ((ht.valid_iff y).mp hy.1)
      have hu : k.UserTask y := ⟨hne.1, (ht.held hne.2).2.kernelTask ▸ hy.2⟩
      rw [(ht.held hne.2).2.pageId] at hj
      exact hne.2 (ha.distinct y x hu ⟨ht.valid, hkt⟩ (hj.trans hi.symm))
    have huser : ∀ y, k'.UserTask y ↔ k₁.UserTask y := fun y => by
      unfold UserTask
      rw [h.task]
    constructor
    · refine ha₁.congr (fun y hy => ?_) (fun y j hy hj hrun => ?_)
      · rw [h.task] at hy ⊢
        exact ⟨hy, rfl, rfl⟩
      · rw [hids, hother y j ((huser y).mp hy) hj, hrun]
    · intro hu
      rw [huser, h.running] at hu
      obtain ⟨j, hj, hrun⟩ := ha₁.user p hu
      rw [runningTask, h.running, h.task]
      rcases hset with ⟨hneg, -⟩ | ⟨-, hs⟩
      · omega
      · rw [hj] at hs ⊢
        exact Paging.taskPagingSet_used hs ((hother p j hu hj).trans hrun)

/-- **Every step keeps the page ids of the user tasks apart and maps the right one.** -/
theorem Effect.assigned (h : Effect img k₀ l k') (ha : k₀.Assigned) (hm : k₀.Mapped) :
    k'.Assigned ∧ k'.Mapped := by
  cases h with
  | kept h => exact ⟨h.assigned ha, h.mapped hm⟩
  | vidmap k₁ hk t ht h =>
    rw [h]
    exact ⟨(quiet_ret _ _).kept.assigned ((hk.assigned ha).vidmapped t),
      (quiet_ret _ _).kept.mapped ((hk.mapped hm).vidmapped t)⟩
  | scheduled k₁ hk h =>
    exact ⟨h.assigned (hk.assigned ha), h.mapped (hk.assigned ha) fun _ => hk.mapped hm⟩
  | launched k₁ hk a x _ hl h => exact h.assigned (hk.assigned ha)
  | halted k₁ hk cause hc h =>
    cases h with
    | toParent p k₂ hp ht h => exact h.assigned ht (hk.assigned ha)
    | alone k₂ hp ht h hne =>
      have ha₂ := ht.assigned (hk.assigned ha)
      refine ⟨h.assigned ha₂, h.mapped ha₂ fun hr => ?_⟩
      exact absurd (hr.trans ht.running) hne
  | closed k₁ hk x hc h =>
    refine ⟨h.assigned (hk.assigned ha), h.mapped (hk.mapped hm) ?_⟩
    rw [hk.running]
    exact (closes_ne_running hc).symm

end Kernel

end AuroraOS
