/-
# Task slots and page ids

`task_count` and the page ids are kept by hand along the ways on which tasks start and
end.  A task that halts back to its parent gives its page id back; one that halts without a
parent, or is ended because its window is closed, does not.
-/
import AuroraOS.Isolation

namespace AuroraOS

open Ring Machine

namespace Kernel

variable {k k' k₀ : Kernel} {img : FsImage} {noise : Noise} {l : Label} {x y : TaskId}

/-! ## The statement -/

/-- The page ids marked `PAGE_ID_USED`. -/
def usedIds (k : Kernel) : Finset (Fin 10) :=
  Finset.univ.filter fun i => k.paging.pageIdRunning i = true

/-- **Slots and page ids are accounted for.** -/
structure Accounted (k : Kernel) : Prop where
  taskCount : k.taskCount = k.live.card
  used : ∀ i : Fin 10, k.paging.pageIdRunning i = true ↔
    ∃ x, k.UserTask x ∧ (k.task x).pageId = i.val
  inRange : ∀ x, k.UserTask x → ∃ i : Fin 10, (k.task x).pageId = i.val
  distinct : ∀ x y, k.UserTask x → k.UserTask y → (k.task x).pageId = (k.task y).pageId → x = y
  pageIdCount : k.paging.pageIdCount = k.usedIds.card
  free : (∀ x, ¬ k.UserTask x) → ∀ i, k.paging.pageIdRunning i = false

/-- A call of one of the three functions in the running task, or another step of the
kernel between them. -/
inductive Call where
  | execute (noise : Noise) (a : ExecuteArgs)
  | halt (noise : Noise) (status : BitVec 32)
  | haltTerminal (noise : Noise) (t : TermId)
  | step (l : Label)

/-- The kernel behind a call. -/
def call (img : FsImage) (k : Kernel) : Call → Except Fault Kernel
  | .execute noise a =>
    match k.systemExecute img noise a with
    | .ok k => .ok k
    | .error k => .ok (k.ret (-1))
  | .halt noise status => k.systemHalt noise status
  | .haltTerminal noise t => k.taskHaltTerminal noise t
  | .step l => k.step img l

/-- The arguments, if `system_execute` is called. -/
def Call.executeArgs : Call → Option ExecuteArgs
  | .execute _ a => some a
  | _ => none

/-- The task that a call ends. -/
def ends (k : Kernel) : Call → Option TaskId
  | .execute _ _ => none
  | .halt _ _ => some k.running
  | .haltTerminal _ t => k.terminalFgTask t
  | .step l => if k.halts l = none then k.closes l else some k.running

instance (k : Kernel) (x : TaskId) : Decidable (k.UserTask x) :=
  inferInstanceAs (Decidable (_ ∧ _))

/-- No call is refused with its slot, and a user task ends only by halting to its parent. -/
def GivesBack (k : Kernel) (c : Call) : Prop :=
  (∀ a ∈ c.executeArgs, ¬ k.SlotLeaks a) ∧
    ∀ x ∈ k.ends c, k.UserTask x → x = k.running ∧ k.runningTask.parent ≠ none

instance (k : Kernel) (c : Call) : Decidable (GivesBack k c) :=
  inferInstanceAs (Decidable (_ ∧ _))

/-! ## The invariant -/

/-- The page ids in use are those of the user tasks. -/
structure Paged (k : Kernel) : Prop extends Assigned k where
  owned : ∀ i : Fin 10, k.paging.pageIdRunning i = true →
    ∃ x, k.UserTask x ∧ (k.task x).pageId = i.val
  count : k.paging.pageIdCount = k.usedIds.card

theorem Paged.accounted (h : k.Paged) (hs : k.Sound) : k.Accounted where
  taskCount := hs.count
  used := by
    intro i
    refine ⟨h.owned i, ?_⟩
    rintro ⟨x, hx, hi⟩
    obtain ⟨j, hj, hrun⟩ := h.user x hx
    have : i = j := Fin.ext (by exact_mod_cast hi.symm.trans hj)
    rw [this, hrun]
  inRange := by
    intro x hx
    obtain ⟨i, hi, -⟩ := h.user x hx
    exact ⟨i, hi⟩
  distinct := h.distinct
  pageIdCount := h.count
  free := by
    intro hnone i
    cases hi : k.paging.pageIdRunning i with
    | false => rfl
    | true =>
      obtain ⟨x, hx, -⟩ := h.owned i hi
      exact absurd hx (hnone x)

/-- The same user tasks with the same page ids. -/
theorem Paged.congr (h : k.Paged) (ha : k'.Assigned)
    (hu : ∀ x, k.UserTask x → k'.UserTask x ∧ (k'.task x).pageId = (k.task x).pageId)
    (hr : k'.paging.pageIdRunning = k.paging.pageIdRunning)
    (hc : k'.paging.pageIdCount = k.paging.pageIdCount) : k'.Paged where
  toAssigned := ha
  owned := by
    intro i hi
    rw [hr] at hi
    obtain ⟨x, hx, hid⟩ := h.owned i hi
    exact ⟨x, (hu x hx).1, (hu x hx).2.trans hid⟩
  count := by
    unfold usedIds
    rw [hr, hc]
    exact h.count

theorem Kept.paged (h : Kept k k') (hp : k.Paged) : k'.Paged :=
  hp.congr (h.assigned hp.toAssigned)
    (fun x hx => ⟨(h.userTask x).mpr hx, (h.held x hx.1).pageId⟩) (by rw [h.paging])
      (by rw [h.paging])

theorem Paged.vidmapped (hp : k.Paged) (t : TermId) : (k.vidmapped t).Paged := by
  refine hp.congr (hp.toAssigned.vidmapped t) (fun x hx => ?_) rfl rfl
  obtain ⟨hv, hf, hid⟩ := k.vidmapped_task t x
  exact ⟨⟨hv.trans hx.1, hf ▸ hx.2⟩, hid⟩

theorem Scheduled.paged (h : Scheduled noise k k') (hp : k.Paged) : k'.Paged := by
  refine hp.congr (h.assigned hp.toAssigned) (fun x hx => ?_) h.pageIdRunning h.pageIdCount
  unfold UserTask
  rw [h.task]
  exact ⟨hx, rfl⟩

/-- A new user task has the new page id. -/
theorem Launched.paged {a : ExecuteArgs} (h : Launched k a x k') (hp : k.Paged) : k'.Paged := by
  have ha := (h.assigned hp.toAssigned).1
  have hold : ∀ y, k.UserTask y → k'.UserTask y ∧ (k'.task y).pageId = (k.task y).pageId := by
    intro y hy
    have hne : y ≠ x := by
      rintro rfl
      have := hy.1
      rw [h.fresh] at this
      cases this
    exact ⟨⟨(h.held hne).1.trans hy.1, (h.held hne).2.kernelTask.trans hy.2⟩, (h.held hne).2.pageId⟩
  rcases h.pages with ⟨hkt, hpaging, hid⟩ | ⟨hkt, i, hfree, hpaging, hid⟩
  · exact hp.congr ha hold (by rw [hpaging]) (by rw [hpaging])
  · have hx : k'.UserTask x := ⟨h.valid, by rw [h.flags]; exact hkt⟩
    have hrun : k'.paging.pageIdRunning = Function.update k.paging.pageIdRunning i true := by
      rw [hpaging]
      rfl
    refine ⟨ha, fun j hj => ?_, ?_⟩
    · by_cases hji : j = i
      · exact ⟨x, hx, hji ▸ hid⟩
      · rw [hrun, Function.update_of_ne hji] at hj
        obtain ⟨y, hy, hyj⟩ := hp.owned j hj
        exact ⟨y, (hold y hy).1, (hold y hy).2.trans hyj⟩
    · have hused : k'.usedIds = insert i k.usedIds := by
        ext j
        simp only [usedIds, hrun, Finset.mem_insert, Finset.mem_filter, Finset.mem_univ, true_and]
        by_cases hji : j = i
        · simp [hji]
        · simp [hji]
      have hnew : i ∉ k.usedIds := by simp [usedIds, hfree]
      have hcount : k'.paging.pageIdCount = k.paging.pageIdCount + 1 := by
        rw [hpaging]
        rfl
      rw [hused, Finset.card_insert_of_notMem hnew, hcount, hp.count]
      push_cast
      rfl

/-- The end of a kernel task leaves the page ids alone. -/
theorem TornDown.paged (h : TornDown x k k') (hp : k.Paged) (hx : ¬ k.UserTask x) : k'.Paged := by
  refine hp.congr (h.assigned hp.toAssigned) (fun y hy => ?_) (by rw [h.paging]) (by rw [h.paging])
  have hne : y ≠ x := fun he => hx (he ▸ hy)
  exact ⟨⟨(h.held hne).1.trans hy.1, (h.held hne).2.kernelTask.trans hy.2⟩, (h.held hne).2.pageId⟩

/-- A task that halts to its parent gives its page id back. -/
theorem ToParent.paged {k₁ : Kernel} {p : TaskId} {status : BitVec 32} (ht : TornDown x k k₁)
    (h : ToParent p status x k₁ k') (hp : k.Paged) : k'.Paged := by
  have ha := (h.assigned ht hp.toAssigned).1
  obtain ⟨q, hfree, hset⟩ := h.paging
  rw [ht.pageId, ht.paging] at hfree
  cases hkt : (k.task x).flags.kernelTask with
  | true =>
    rw [hp.kernel x ht.valid hkt] at hfree
    cases hfree
  | false =>
    obtain ⟨i, hi, hrun⟩ := hp.user x ⟨ht.valid, hkt⟩
    rw [hi, Paging.taskPagingDeallocate_fin, hrun, if_pos rfl] at hfree
    have hids : k'.paging.pageIdRunning = Function.update k.paging.pageIdRunning i false ∧
        k'.paging.pageIdCount = k.paging.pageIdCount - 1 := by
      cases hfree
      rcases hset with ⟨-, he⟩ | ⟨-, hs⟩
      · rw [he]
        exact ⟨rfl, rfl⟩
      · exact taskPagingSet_ids hs
    refine ⟨ha, fun j hj => ?_, ?_⟩
    · have hji : j ≠ i := by
        rintro rfl
        rw [hids.1, Function.update_self] at hj
        cases hj
      rw [hids.1, Function.update_of_ne hji] at hj
      obtain ⟨y, hy, hyj⟩ := hp.owned j hj
      have hne : y ≠ x := by
        rintro rfl
        exact hji (Fin.ext (by exact_mod_cast hyj.symm.trans hi))
      refine ⟨y, ⟨?_, ?_⟩, ?_⟩
      · rw [h.task, (ht.held hne).1, hy.1]
      · rw [h.task, (ht.held hne).2.kernelTask, hy.2]
      · rw [h.task, (ht.held hne).2.pageId, hyj]
    · have hused : k'.usedIds = k.usedIds.erase i := by
        ext j
        simp only [usedIds, hids.1, Finset.mem_erase, Finset.mem_filter, Finset.mem_univ, true_and]
        by_cases hji : j = i
        · simp [hji]
        · simp [hji]
      have hmem : i ∈ k.usedIds := by simp [usedIds, hrun]
      have hpos : 0 < k.usedIds.card := Finset.card_pos.mpr ⟨i, hmem⟩
      rw [hused, Finset.card_erase_of_mem hmem, hids.2, hp.count]
      omega

/-- A task may halt if it has a parent, or no page id. -/
theorem Halted.paged {status : BitVec 32} (h : Halted noise status k k') (hp : k.Paged)
    (hc : k.UserTask k.running → k.runningTask.parent ≠ none) : k'.Paged := by
  cases h with
  | toParent p k₁ _ ht h => exact h.paged ht hp
  | alone k₁ hnone ht h _ => exact h.paged (ht.paged hp fun hu => hc hu hnone)

theorem Effect.paged (h : Effect img k₀ l k') (hs : k₀.Sound) (hp : k₀.Paged)
    (hc : GivesBack k₀ (.step l)) : k'.Paged := by
  have hends := hc.2
  cases h with
  | kept h => exact h.paged hp
  | vidmap k₁ hk t ht h =>
    rw [h]
    exact (quiet_ret _ _).kept.paged ((hk.paged hp).vidmapped t)
  | scheduled k₁ hk h => exact h.paged (hk.paged hp)
  | launched k₁ hk a x ha hl h => exact h.paged (hk.paged hp)
  | halted k₁ hk cause hcause h =>
    refine h.paged (hk.paged hp) fun hu => ?_
    have hmem : k₀.running ∈ k₀.ends (.step l) := by simp [ends, hcause]
    rw [hk.running, hk.userTask] at hu
    rw [runningTask, hk.running, (hk.held _ hs.running).parent]
    exact (hends _ hmem hu).2
  | closed k₁ hk x hclose h =>
    refine h.paged (hk.paged hp) fun hu => ?_
    have hhalts : k₀.halts l = none := by
      unfold closes at hclose
      unfold halts
      split at hclose
      · next hstack he =>
        obtain ⟨hm, hne⟩ := Option.filter_eq_some_iff.mp hclose
        have hne' := of_decide_eq_true hne
        simp [hstack, he, hm, hne']
      · cases hclose
    have hmem : x ∈ k₀.ends (.step l) := by simp [ends, hhalts, hclose]
    exact closes_ne_running hclose (hends x hmem ((hk.userTask x).mp hu)).1

/-- **A call that meets the condition keeps the accounts.** -/
theorem call_paged {c : Call} (hs : k.Sound) (hp : k.Paged) (hc : GivesBack k c)
    (h : k.call img c = .ok k') : k'.Sound ∧ k'.Paged := by
  cases c with
  | execute noise a =>
    rcases systemExecute_sound img noise hs (hc.1 a rfl) with
      ⟨-, k₁, hrun, hu⟩ | ⟨-, x, k₁, hrun, hl⟩
    · simp only [call, hrun] at h
      cases h
      have hk := hu.kept.trans (quiet_ret k₁ (-1)).kept
      exact ⟨hk.sound hs, hk.paged hp⟩
    · simp only [call, hrun] at h
      cases h
      exact ⟨hl.sound hs, hl.paged hp⟩
  | halt noise status =>
    have hh := systemHalt_halted h hs.running
    exact ⟨hh.sound hs, hh.paged hp fun hu => (hc.2 _ rfl hu).2⟩
  | haltTerminal noise t =>
    rcases taskHaltTerminal_cases h with hq | ⟨hfg, hsys⟩ | ⟨x, hfg, hne, ht⟩
    · exact ⟨hq.kept.sound hs, hq.kept.paged hp⟩
    · have hh := systemHalt_halted hsys hs.running
      exact ⟨hh.sound hs, hh.paged hp fun hu => (hc.2 _ hfg hu).2⟩
    · exact ⟨ht.sound hs hne.symm, ht.paged hp fun hu => hne (hc.2 x hfg hu).1⟩
  | step l => exact ⟨step_sound hs h, (step_effect hs h).paged hs hp hc⟩

/-- The shell starts `cat`, and `cat` halts. -/
def catHalts : List Call :=
  (traceOf (firstTick ++ openShell ++ [.execute catCommand])).map Call.step ++
    [.halt { eax := 7, stack := fun _ => 0 } 0]

end Kernel

end AuroraOS
