/-
# Time slices

The handler of the PIT as a round robin over the run queue.  The running task is at the head
of the queue, and the idle task somewhere behind it.  A tick takes 10 ms off the time of the
running task; when nothing is left, the task gets 50 ms and goes to the end, and when this
brings the idle task to the head, the idle task goes behind it.
-/
import AuroraOS.RoundRobin
import AuroraOS.RtcWakeUp

namespace AuroraOS

open Ring Machine RoundRobin

/-- The ticks of a whole slice, `SCHED_TASK_TIME / SCHED_PIT_INTERVAL`. -/
def ticksPerSlice : ℕ := (schedTaskTime / schedPitInterval).toNat

namespace Kernel

variable {k k' k'' : Kernel} {noise : Noise} {x y z : TaskId}

/-! ## The run queue -/

/-- The tasks on the run queue, but for the idle task. -/
def ready (k : Kernel) : List TaskId :=
  (k.taskList .runQueue).filter fun x => !(k.task x).flags.idleTask

/-- What the PIT sees of the run queue. -/
def slices (k : Kernel) : Slices TaskId where
  queue := k.ready
  left := fun x => ((k.task x).remainTime / schedPitInterval).toNat

/-- **The run queue under the PIT**: the running task is at its head, the idle task behind it,
and the others have a positive number of ticks left. -/
structure Sliced (k : Kernel) : Prop where
  rings : Rings k.links k.taskList
  head : (k.taskList .runQueue).head? = some k.running
  busy : k.runningTask.flags.idleTask = false
  idle : ∃ z ∈ k.taskList .runQueue, (k.task z).flags.idleTask = true ∧
    ∀ y ∈ k.taskList .runQueue, (k.task y).flags.idleTask = true → y = z
  left : ∀ x ∈ k.ready, 0 < (k.task x).remainTime ∧ schedPitInterval ∣ (k.task x).remainTime
  valid : ∀ x ∈ k.ready, (k.task x).valid = true
  page : ∀ x ∈ k.ready, (k.task x).pageId < taskMaxCount

theorem mem_ready : x ∈ k.ready ↔ x ∈ k.taskList .runQueue ∧ (k.task x).flags.idleTask = false := by
  rw [ready, List.mem_filter, Bool.not_eq_true']

theorem Sliced.nodup (hs : k.Sliced) : k.ready.Nodup := (hs.rings.nodup .runQueue).filter _

/-- The run queue behind the running task. -/
theorem Sliced.queue (hs : k.Sliced) : ∃ rest z, k.taskList .runQueue = k.running :: rest ∧
    z ∈ rest ∧ (k.task z).flags.idleTask = true ∧
    (∀ y ∈ rest, (k.task y).flags.idleTask = true → y = z) ∧
    k.ready = k.running :: rest.filter fun x => !(k.task x).flags.idleTask := by
  obtain ⟨rest, hrest⟩ := List.head?_eq_some_iff.mp hs.head
  obtain ⟨z, hz, hidle, honly⟩ := hs.idle
  have hbusy : (k.task k.running).flags.idleTask = false := hs.busy
  rw [hrest] at hz honly
  refine ⟨rest, z, hrest, ?_, hidle, fun y hy => honly y (List.mem_cons_of_mem _ hy), ?_⟩
  · rcases List.mem_cons.mp hz with rfl | hz
    · rw [hbusy] at hidle
      cases hidle
    · exact hz
  · rw [ready, hrest, List.filter_cons_of_pos (by rw [hbusy]; rfl)]

theorem Sliced.running_mem (hs : k.Sliced) : k.running ∈ k.ready :=
  mem_ready.mpr ⟨List.mem_of_head? hs.head, hs.busy⟩

/-! ## What a tick leaves alone -/

/-- The run queue and the times are the same. -/
structure SameTurns (k k' : Kernel) : Prop where
  running : k'.running = k.running
  links : k'.links = k.links
  idle : ∀ x, (k'.task x).flags.idleTask = (k.task x).flags.idleTask
  remainTime : ∀ x, (k'.task x).remainTime = (k.task x).remainTime
  valid : ∀ x, (k'.task x).valid = (k.task x).valid
  page : ∀ x, (k'.task x).pageId = (k.task x).pageId

theorem SameTurns.refl (k : Kernel) : SameTurns k k :=
  ⟨rfl, rfl, fun _ => rfl, fun _ => rfl, fun _ => rfl, fun _ => rfl⟩

theorem SameTurns.trans (h : SameTurns k k') (h' : SameTurns k' k'') : SameTurns k k'' :=
  ⟨h'.running.trans h.running, h'.links.trans h.links, fun x => (h'.idle x).trans (h.idle x),
    fun x => (h'.remainTime x).trans (h.remainTime x), fun x => (h'.valid x).trans (h.valid x),
    fun x => (h'.page x).trans (h.page x)⟩

theorem SameTurns.taskList (h : SameTurns k k') : k'.taskList = k.taskList := by
  funext s
  rw [Kernel.taskList, Kernel.taskList, h.links]

theorem SameTurns.ready (h : SameTurns k k') : k'.ready = k.ready := by
  rw [Kernel.ready, Kernel.ready, h.taskList]
  exact List.filter_congr fun x _ => by rw [h.idle x]

theorem SameTurns.slices (h : SameTurns k k') : k'.slices = k.slices := by
  rw [Kernel.slices, Kernel.slices, h.ready]
  congr 1
  funext x
  rw [h.remainTime x]

theorem SameTurns.sliced (h : SameTurns k k') (hs : k.Sliced) : k'.Sliced where
  rings := by
    rw [h.taskList, h.links]
    exact hs.rings
  head := by
    rw [h.taskList, h.running]
    exact hs.head
  busy := by
    rw [runningTask, h.running, h.idle]
    exact hs.busy
  idle := by
    obtain ⟨z, hz, hidle, honly⟩ := hs.idle
    rw [h.taskList]
    exact ⟨z, hz, (h.idle z).trans hidle, fun y hy hi => honly y hy ((h.idle y).symm.trans hi)⟩
  left := by
    intro x hx
    rw [h.ready] at hx
    rw [h.remainTime x]
    exact hs.left x hx
  valid := by
    intro x hx
    rw [h.ready] at hx
    exact (h.valid x).trans (hs.valid x hx)
  page := by
    intro x hx
    rw [h.ready] at hx
    rw [h.page x]
    exact hs.page x hx

/-- A calm change that does not touch the times. -/
theorem Calm.sameTurns (h : Calm k k') (hr : ∀ x, (k'.task x).remainTime = (k.task x).remainTime) :
    SameTurns k k' :=
  ⟨h.running, h.links, fun x => by rw [(h.core x).flags], hr, fun x => (h.core x).valid,
    fun x => (h.core x).pageId⟩

theorem remainTime_modifyTask (k : Kernel) (x : TaskId) {f : Task → Task}
    (hf : ∀ t, (f t).remainTime = t.remainTime) (y : TaskId) :
    ((k.modifyTask x f).task y).remainTime = (k.task y).remainTime := by
  by_cases hy : y = x
  · subst hy
    rw [modifyTask_task, Function.update_self, hf]
  · rw [modifyTask_task, Function.update_of_ne hy]

theorem sameTurns_modifyTask (k : Kernel) (x : TaskId) {f : Task → Task}
    (hf : ∀ t : Task, t.SameCore (f t) ∧ (f t).kstack = t.kstack)
    (hr : ∀ t, (f t).remainTime = t.remainTime) : SameTurns k (k.modifyTask x f) :=
  (k.quiet_modifyTask x hf).toCalm.sameTurns (k.remainTime_modifyTask x hr)

theorem sameTurns_push (k : Kernel) {f : Frame} (hf : f.isLaunch = false) :
    SameTurns k (k.push f) :=
  (k.quiet_push hf).toCalm.sameTurns (k.remainTime_modifyTask k.running fun _ => rfl)

theorem sameTurns_modifySignals (k : Kernel) (x : TaskId) (f : SignalStruct → SignalStruct) :
    SameTurns k (k.modifySignals x f) :=
  (k.quiet_modifySignals x f).toCalm.sameTurns (k.remainTime_modifyTask x fun _ => rfl)

theorem sameTurns_pitRender (k : Kernel) : SameTurns k k.pitRender := by
  refine k.quiet_pitRender.toCalm.sameTurns fun x => ?_
  unfold pitRender
  simp only
  split <;> rfl

theorem sameTurns_signalSend (k : Kernel) (signal : ℕ) : SameTurns k (k.signalSend signal) := by
  unfold signalSend
  split
  · cases k.focusTask with
    | none => exact .refl k
    | some f => exact k.sameTurns_modifySignals f _
  · exact k.sameTurns_modifySignals _ _

theorem sameTurns_pitAlarm (k : Kernel) : SameTurns k k.pitAlarm := by
  unfold pitAlarm
  cases k.focusTask with
  | none => exact .refl k
  | some f =>
    simp only
    split
    · exact ((k.sameTurns_modifySignals f _).trans (sameTurns_signalSend _ _)).trans
        (sameTurns_modifySignals _ f _)
    · exact k.sameTurns_modifySignals f _

/-! ## The choice of the next task -/

theorem taskPagingSet_ok (p : Paging) {i : ℤ} (hi : i < taskMaxCount) :
    ∃ p', p.taskPagingSet i = .ok p' := by
  unfold Paging.taskPagingSet
  split
  · exact ⟨p, rfl⟩
  · next h =>
    have hrange : 0 ≤ i ∧ i < 10 := by
      simp only [taskMaxCount, Nat.cast_ofNat] at hi
      omega
    rw [Paging.running, dif_pos hrange]
    exact ⟨_, rfl⟩

theorem setTaskPage_ok (hp : (k.task x).pageId < taskMaxCount) :
    ∃ p, k.setTaskPage x = .ok { k with paging := p } := by
  unfold setTaskPage
  split
  · obtain ⟨p, h⟩ := taskPagingSet_ok k.paging hp
    rw [h]
    exact ⟨p, rfl⟩
  · exact ⟨k.paging, rfl⟩

/-- A valid task whose page can be set is switched to. -/
theorem launchTo_run (noise : Noise) (hv : (k.task x).valid = true)
    (hp : (k.task x).pageId < taskMaxCount) :
    ∃ k', k.launchTo x noise = .ok k' ∧ k'.running = x ∧ k'.links = k.links ∧ k'.task = k.task := by
  have hok : ∃ k', k.launchTo x noise = .ok k' := by
    unfold launchTo
    split
    · exact ⟨k, rfl⟩
    · obtain ⟨v, r, hmapped⟩ := k.terminalSetRunning_eq (k.task x).terminal
      rw [hmapped]
      obtain ⟨p, hpage⟩ := (k.mapped v r).setTaskPage_ok hp
      simp only [hpage, ok_bind]
      have htask : (taskApplyUserVidmap { k.mapped v r with paging := p } x).task = k.task := by
        unfold taskApplyUserVidmap
        split
        · split <;> rfl
        · rfl
      rw [switchTo, htask, if_pos hv]
      exact ⟨_, rfl⟩
  obtain ⟨k', h⟩ := hok
  rcases launchTo_eq h with ⟨rfl, hr⟩ | ⟨-, -, v, r, p, rfl, -⟩
  · exact ⟨_, h, hr, rfl, rfl⟩
  · exact ⟨_, h, rfl, rfl, rfl⟩

/-- A task of the run queue that is not the last one goes to its end. -/
theorem moveToLast_queue (hq : Rings k.links k.taskList) (hx : x ∈ k.taskList .runQueue)
    (hlast : k.links.prev (.head .runQueue) ≠ .item x) :
    Rings (k.moveTaskAfterNode x (k.links.prev (.head .runQueue))).links
        (k.moveTaskAfterNode x (k.links.prev (.head .runQueue))).taskList ∧
      (k.moveTaskAfterNode x (k.links.prev (.head .runQueue))).taskList .runQueue =
        (k.taskList .runQueue).erase x ++ [x] := by
  have hback : k.links.next (k.links.prev (.head .runQueue)) = .head .runQueue :=
    (hq.next_prev (Or.inl rfl)).2
  set m := k.moveTaskAfterNode x (k.links.prev (.head .runQueue)) with hm
  have hlinks : m.links = k.links.move (.item x) (k.links.prev (.head .runQueue))
    (.head .runQueue) := by
    rw [hm, moveTaskAfterNode, moveTaskToList, hback]
  have hmoved := hq.move_last hx hlast
  rw [← hlinks] at hmoved
  have hlist := taskList_eq hmoved
  exact ⟨hlist ▸ hmoved, by rw [hlist, Function.update_self]⟩

variable {ys : List TaskId}

/-- The head of the run queue is chosen, if it is not the idle task. -/
theorem schedLaunch_head (noise : Noise) (hq : Rings k.links k.taskList)
    (hqueue : k.taskList .runQueue = y :: ys) (hbusy : (k.task y).flags.idleTask = false) :
    k.schedLaunchToCurrentHead noise = k.launchTo y noise := by
  have hnext : k.links.next (.head .runQueue) = .item y := by
    rw [hq.next_head_eq_item, hqueue]
    rfl
  unfold schedLaunchToCurrentHead
  rw [hnext, if_neg (by simp), taskFromNode, ok_bind, hbusy, if_neg (by simp)]

/-- With the idle task at the head, the next task is chosen, and the idle task goes to the
end. -/
theorem schedLaunch_idle (noise : Noise) (hq : Rings k.links k.taskList)
    (hqueue : k.taskList .runQueue = z :: y :: ys) (hidle : (k.task z).flags.idleTask = true) :
    ∃ m : Kernel, k.schedLaunchToCurrentHead noise = m.launchTo y noise ∧ m.task = k.task ∧
      m.running = k.running ∧ Rings m.links m.taskList ∧ m.taskList .runQueue = y :: ys ++ [z] := by
  have hnext : k.links.next (.head .runQueue) = .item z := by
    rw [hq.next_head_eq_item, hqueue]
    rfl
  have hbehind : k.links.next (.item z) = .item y := by
    have hpath := hq.path .runQueue
    rw [hqueue] at hpath
    exact hpath.2.1.1
  have hmem : z ∈ k.taskList .runQueue := by
    rw [hqueue]
    exact List.mem_cons_self
  have hlast : k.links.prev (.head .runQueue) ≠ .item z := by
    intro hprev
    have hback : k.links.next (k.links.prev (.head .runQueue)) = .head .runQueue :=
      (hq.next_prev (Or.inl rfl)).2
    rw [hprev, hbehind] at hback
    cases hback
  obtain ⟨hmoved, hqueue'⟩ := moveToLast_queue hq hmem hlast
  rw [hqueue, List.erase_cons_head] at hqueue'
  set m := k.moveTaskAfterNode z (k.links.prev (.head .runQueue))
  have hnext' : m.links.next (.head .runQueue) = .item y := by
    rw [hmoved.next_head_eq_item, hqueue']
    rfl
  refine ⟨m, ?_, rfl, rfl, hmoved, hqueue'⟩
  unfold schedLaunchToCurrentHead
  rw [hnext, if_neg (by simp), taskFromNode, ok_bind, if_pos ⟨hidle, by rw [hbehind]; simp⟩]
  show (taskFromNode (m.links.next (.head .runQueue)) >>= fun r => m.launchTo r noise) = _
  rw [hnext', taskFromNode, ok_bind]

/-! ## One tick -/

/-- **What a tick does.** -/
structure Ticked (k k' : Kernel) : Prop where
  others : ∀ x, x ≠ k.running → (k'.task x).remainTime = (k.task x).remainTime
  goesOn : schedPitInterval < k.runningTask.remainTime → k'.running = k.running ∧
    (k'.task k.running).remainTime = k.runningTask.remainTime - schedPitInterval ∧
    k'.taskList .runQueue = k.taskList .runQueue
  switches : k.runningTask.remainTime ≤ schedPitInterval →
    (k'.task k.running).remainTime = schedTaskTime ∧ k'.ready = k.ready.tail ++ [k.running] ∧
    k'.ready.head? = some k'.running ∧ (k'.taskList .runQueue).Perm (k.taskList .runQueue)

/-- The running task with another time. -/
theorem modifyRunning_task (k : Kernel) (f : Task → Task) :
    (k.modifyTask k.running f).task k.running = f k.runningTask := by
  rw [modifyTask_task, Function.update_self, runningTask]

/-- The next task that runs when the running task has gone to the end. -/
theorem Sliced.next (hs : k.Sliced) {m : Kernel} (noise : Noise)
    (hflags : ∀ x, (m.task x).flags = (k.task x).flags) (hrings : Rings m.links m.taskList)
    {rest : List TaskId} (hqueue : k.taskList .runQueue = k.running :: rest)
    (hlist : m.taskList .runQueue = rest ++ [k.running]) :
    ∃ (m' : Kernel) (y : TaskId) (ys : List TaskId),
      m.schedLaunchToCurrentHead noise = m'.launchTo y noise ∧ m'.task = m.task ∧
      Rings m'.links m'.taskList ∧ m'.taskList .runQueue = y :: ys ∧
      (y :: ys).filter (fun x => !(k.task x).flags.idleTask) = k.ready.tail ++ [k.running] ∧
      (y :: ys).Perm (k.taskList .runQueue) ∧ (k.task y).flags.idleTask = false := by
  obtain ⟨rest', z, hqueue', hz, hidle, honly, hready⟩ := hs.queue
  obtain rfl : rest = rest' := (List.cons.inj (hqueue.symm.trans hqueue')).2
  have hnd := hs.rings.nodup .runQueue
  rw [hqueue] at hnd
  have hbusy : (k.task k.running).flags.idleTask = false := hs.busy
  have hrun : [k.running].filter (fun x => !(k.task x).flags.idleTask) = [k.running] := by
    rw [List.filter_cons_of_pos (by rw [hbusy]; rfl), List.filter_nil]
  obtain ⟨u, us, rfl⟩ := List.exists_cons_of_ne_nil (List.ne_nil_of_mem hz)
  rw [hready, List.tail_cons, hqueue]
  cases hu : (k.task u).flags.idleTask with
  | false =>
    refine ⟨m, u, us ++ [k.running], schedLaunch_head noise hrings hlist (by rw [hflags, hu]), rfl,
      hrings, hlist, ?_, List.perm_append_singleton k.running (u :: us), hu⟩
    rw [← List.cons_append, List.filter_append, hrun]
  | true =>
    -- the idle task is at the head now, so it goes behind the task that has just run
    obtain rfl := honly u List.mem_cons_self hu
    obtain ⟨y, ys, hys⟩ := List.exists_cons_of_ne_nil
      (List.append_ne_nil_of_right_ne_nil us (List.cons_ne_nil k.running []))
    rw [List.cons_append, hys] at hlist
    obtain ⟨m', hlaunch, htask, -, hrings', hlist'⟩ :=
      schedLaunch_idle noise hrings hlist (by rw [hflags, hu])
    have hy : (k.task y).flags.idleTask = false := by
      have hmem : y ∈ us ++ [k.running] := by
        rw [hys]
        exact List.mem_cons_self
      rw [List.mem_append, List.mem_singleton] at hmem
      rcases hmem with hmem | rfl
      · by_contra hne
        have := honly y (List.mem_cons_of_mem _ hmem) (Bool.not_eq_false _ ▸ hne)
        subst this
        exact (List.nodup_cons.mp (List.nodup_cons.mp hnd).2).1 hmem
      · exact hbusy
    have hfilter : [u].filter (fun x => !(k.task x).flags.idleTask) = [] := by
      rw [List.filter_cons_of_neg (by simp [hu]), List.filter_nil]
    refine ⟨m', y, ys ++ [u], hlaunch, htask, hrings', hlist', ?_, ?_, hy⟩
    · rw [← List.cons_append, ← hys, List.filter_append, List.filter_append, hrun, hfilter,
        List.append_nil, List.filter_cons_of_neg (by simp [hu])]
    · rw [← List.cons_append, ← hys]
      exact (List.perm_append_singleton _ _).trans
        ((List.perm_append_singleton _ _).cons u |>.trans (List.Perm.swap _ _ _))

/-- The end of a slice: the running task is refilled, goes to the end, and the next one is
chosen. -/
theorem Sliced.switch (hs : k.Sliced) (noise : Noise) :
    ∃ k', (k.schedRefillTime k.running).schedMoveRunningToLast.schedLaunchToCurrentHead noise =
      .ok k' ∧ k'.task = (k.schedRefillTime k.running).task ∧ Rings k'.links k'.taskList ∧
      (k'.taskList .runQueue).head? = some k'.running ∧
      (k'.taskList .runQueue).Perm (k.taskList .runQueue) ∧
      k'.ready = k.ready.tail ++ [k.running] ∧ k'.runningTask.flags.idleTask = false := by
  obtain ⟨rest, z, hqueue, hz, hidle, honly, hready⟩ := hs.queue
  set r := k.schedRefillTime k.running with hr
  have hflags : ∀ x, (r.task x).flags = (k.task x).flags := fun x =>
    ((k.quiet_schedRefillTime k.running).core x).flags
  have hcore : ∀ x ∈ k.ready, (r.task x).valid = true ∧ (r.task x).pageId < taskMaxCount := by
    intro x hx
    have hsame := (k.quiet_schedRefillTime k.running).core x
    rw [← hr] at hsame
    exact ⟨hsame.valid.trans (hs.valid x hx), hsame.pageId.symm ▸ hs.page x hx⟩
  -- the running task is not the last one, because the idle task is behind it
  have hne : k.running ∉ rest := (List.nodup_cons.mp (hqueue ▸ hs.rings.nodup .runQueue)).1
  have hlast : r.links.prev (.head .runQueue) ≠ .item k.running := by
    intro hprev
    have hget := hs.rings.prev_head_eq_item.mp hprev
    rw [hqueue, List.getLast?_cons_of_ne_nil (List.ne_nil_of_mem hz)] at hget
    exact hne (List.mem_of_getLast? hget)
  have hmem : r.running ∈ r.taskList .runQueue := by
    show k.running ∈ k.taskList .runQueue
    rw [hqueue]
    exact List.mem_cons_self
  obtain ⟨hrings, hlist⟩ := moveToLast_queue (k := r) hs.rings hmem hlast
  have hmove : r.schedMoveRunningToLast =
      r.moveTaskAfterNode r.running (r.links.prev (.head .runQueue)) := if_pos hlast
  rw [← hmove] at hrings hlist
  have hqueue_r : r.taskList .runQueue = k.running :: rest := hqueue
  have hrunning : r.running = k.running := rfl
  rw [hqueue_r, hrunning, List.erase_cons_head] at hlist
  have htask : r.schedMoveRunningToLast.task = r.task := by
    rw [hmove]
    rfl
  set m := r.schedMoveRunningToLast with hm
  obtain ⟨m', y, ys, hlaunch, htask', hrings', hqueue', hready', hperm, hbusy⟩ :=
    hs.next (m := m) noise (fun x => by rw [htask, hflags]) hrings hqueue hlist
  have hy : y ∈ k.ready := mem_ready.mpr ⟨hperm.subset List.mem_cons_self, hbusy⟩
  rw [htask] at htask'
  obtain ⟨hvalid, hpage⟩ := hcore y hy
  rw [← htask'] at hvalid hpage
  obtain ⟨k', hk', hrun, hlinks, hsame⟩ := launchTo_run noise hvalid hpage
  have hlists : k'.taskList = m'.taskList := by
    funext s
    rw [taskList, taskList, hlinks]
  have htasks : k'.task = r.task := hsame.trans htask'
  refine ⟨k', hlaunch.trans hk', htasks, ?_, ?_, ?_, ?_, ?_⟩
  · rw [hlists, hlinks]
    exact hrings'
  · rw [hlists, hqueue', hrun]
    rfl
  · rw [hlists, hqueue']
    exact hperm
  · rw [ready, hlists, hqueue', ← hready']
    exact List.filter_congr fun x _ => by rw [htasks, hflags]
  · rw [runningTask, htasks, hrun, hflags]
    exact hbusy

/-- The run queue is still in order when it has been turned and the times have been set. -/
theorem Sliced.turned (hs : k.Sliced) (hcore : ∀ x, (k.task x).SameCore (k'.task x))
    (hrings : Rings k'.links k'.taskList) (hhead : (k'.taskList .runQueue).head? = some k'.running)
    (hbusy : k'.runningTask.flags.idleTask = false)
    (hperm : (k'.taskList .runQueue).Perm (k.taskList .runQueue))
    (hleft : ∀ x ∈ k.ready, 0 < (k'.task x).remainTime ∧
      schedPitInterval ∣ (k'.task x).remainTime) : k'.Sliced := by
  have hready : ∀ x, x ∈ k'.ready → x ∈ k.ready := by
    intro x hx
    rw [mem_ready, (hcore x).flags, hperm.mem_iff] at hx
    exact mem_ready.mpr hx
  refine ⟨hrings, hhead, hbusy, ?_, fun x hx => hleft x (hready x hx), fun x hx => ?_,
    fun x hx => ?_⟩
  · obtain ⟨z, hz, hidle, honly⟩ := hs.idle
    refine ⟨z, hperm.mem_iff.mpr hz, by rw [(hcore z).flags, hidle], fun y hy hi => ?_⟩
    rw [(hcore y).flags] at hi
    exact honly y (hperm.mem_iff.mp hy) hi
  · rw [(hcore x).valid]
    exact hs.valid x (hready x hx)
  · rw [(hcore x).pageId]
    exact hs.page x (hready x hx)

/-- The running task uses a tick. -/
def used (k : Kernel) : Kernel :=
  k.modifyTask k.running fun t => { t with remainTime := t.remainTime - schedPitInterval }

theorem used_core (k : Kernel) (x : TaskId) : (k.task x).SameCore (k.used.task x) := by
  have hq : Quiet k k.used :=
    k.quiet_modifyTask k.running fun _ => ⟨⟨rfl, rfl, rfl, rfl, rfl, rfl⟩, rfl⟩
  exact hq.core x

theorem used_running (k : Kernel) :
    (k.used.task k.running).remainTime = k.runningTask.remainTime - schedPitInterval := by
  rw [used, modifyRunning_task]

theorem used_other (k : Kernel) (hx : x ≠ k.running) : k.used.task x = k.task x :=
  Function.update_of_ne hx _ _

theorem refilled_other (k : Kernel) (hx : x ≠ k.running) :
    (k.schedRefillTime k.running).task x = k.task x := Function.update_of_ne hx _ _

theorem refilled_running (k : Kernel) :
    ((k.schedRefillTime k.running).task k.running).remainTime = schedTaskTime := by
  rw [schedRefillTime, modifyRunning_task]

theorem used_refilled (k : Kernel) :
    k.used.schedRefillTime k.running = k.schedRefillTime k.running := by
  unfold used schedRefillTime modifyTask
  simp only [Function.update_self, Function.update_idem]

/-- The handler of the PIT at the end of a tick. -/
theorem pitSchedule_eq (hs : k.Sliced) (noise : Noise) :
    k.pitSchedule noise = if k.runningTask.remainTime ≤ schedPitInterval then
      (k.schedRefillTime k.running).schedMoveRunningToLast.schedLaunchToCurrentHead noise
    else .ok k.used := by
  have hleft : k.used.runningTask.remainTime = k.runningTask.remainTime - schedPitInterval :=
    k.used_running
  unfold pitSchedule
  rw [hs.busy, if_neg (by simp)]
  show (if k.used.runningTask.remainTime ≤ 0 then
    (k.used.schedRefillTime k.running).schedMoveRunningToLast.schedLaunchToCurrentHead noise
    else .ok k.used) = _
  rw [hleft, used_refilled]
  simp only [sub_nonpos]

/-- The slices of a queue whose head is the running task. -/
theorem Sliced.slices_eq (hs : k.Sliced) :
    k.slices = { queue := k.running :: k.ready.tail, left := k.slices.left } := by
  obtain ⟨rest, z, -, -, -, -, hready⟩ := hs.queue
  rw [slices, hready, List.tail_cons]

/-- A tick that leaves time to the running task. -/
theorem Sliced.used (hs : k.Sliced) (hlt : schedPitInterval < k.runningTask.remainTime) :
    k.used.Sliced ∧ Ticked k k.used ∧ k.used.slices = tick ticksPerSlice k.slices := by
  obtain ⟨hpos, hdvd⟩ := hs.left k.running hs.running_mem
  have hrun := k.used_running
  have hready : k.used.ready = k.ready :=
    List.filter_congr fun x _ => by rw [(k.used_core x).flags]
  refine ⟨hs.turned k.used_core hs.rings hs.head ?_ (List.Perm.refl _) ?_, ?_, ?_⟩
  · exact (congrArg TaskFlags.idleTask (k.used_core k.running).flags).trans hs.busy
  · intro x hx
    by_cases hxr : x = k.running
    · subst hxr
      rw [hrun]
      exact ⟨sub_pos.mpr hlt, dvd_sub hdvd (dvd_refl _)⟩
    · rw [k.used_other hxr]
      exact hs.left x hx
  · refine ⟨fun x hx => by rw [k.used_other hx], fun _ => ⟨rfl, hrun, rfl⟩, fun hle => ?_⟩
    exact absurd hlt (not_lt.mpr hle)
  · obtain ⟨c, hc⟩ := hdvd
    have hc' : k.runningTask.remainTime = schedPitInterval * c := hc
    have hleft : k.slices.left k.running = c.toNat := by
      show ((k.task k.running).remainTime / schedPitInterval).toNat = c.toNat
      rw [hc, Int.mul_ediv_cancel_left c (by decide)]
    have hused : (((k.task k.running).remainTime - schedPitInterval) / schedPitInterval).toNat =
        c.toNat - 1 := by
      rw [hc]
      simp only [schedPitInterval]
      omega
    have hon : 1 < k.slices.left k.running := by
      rw [hc'] at hlt
      rw [hleft]
      simp only [schedPitInterval] at hlt
      omega
    rw [hs.slices_eq, tick_on hon, hleft, Kernel.slices, hready]
    congr 1
    · obtain ⟨rest, z, -, -, -, -, hr⟩ := hs.queue
      rw [hr, List.tail_cons]
    · funext x
      by_cases hx : x = k.running
      · subst hx
        rw [Function.update_self, hrun]
        exact hused
      · rw [Function.update_of_ne hx, k.used_other hx]
        rfl

/-- A tick that uses up the slice of the running task. -/
theorem Sliced.turn (hs : k.Sliced) (hle : k.runningTask.remainTime ≤ schedPitInterval)
    (noise : Noise) :
    ∃ k', (k.schedRefillTime k.running).schedMoveRunningToLast.schedLaunchToCurrentHead noise =
      .ok k' ∧ k'.Sliced ∧ Ticked k k' ∧ k'.slices = tick ticksPerSlice k.slices := by
  obtain ⟨k', hk', htask, hrings, hhead, hperm, hready, hbusy⟩ := hs.switch noise
  have hcore : ∀ x, (k.task x).SameCore (k'.task x) := by
    intro x
    rw [htask]
    exact (k.quiet_schedRefillTime k.running).core x
  have hrun : (k'.task k.running).remainTime = schedTaskTime := by
    rw [htask, refilled_running]
  have hother : ∀ x, x ≠ k.running → (k'.task x).remainTime = (k.task x).remainTime := by
    intro x hx
    rw [htask, k.refilled_other hx]
  have hsliced : k'.Sliced := by
    refine hs.turned hcore hrings hhead hbusy hperm fun x hx => ?_
    by_cases hxr : x = k.running
    · rw [hxr, hrun]
      exact ⟨by decide, by decide⟩
    · rw [hother x hxr]
      exact hs.left x hx
  refine ⟨k', hk', hsliced, ⟨hother, fun hlt => absurd hlt (not_lt.mpr hle), fun _ => ?_⟩, ?_⟩
  · obtain ⟨rest, z, -, -, -, -, hr⟩ := hsliced.queue
    exact ⟨hrun, hready, by rw [hr]; rfl, hperm⟩
  · obtain ⟨hpos, c, hc⟩ := hs.left k.running hs.running_mem
    have hlast : k.slices.left k.running ≤ 1 := by
      have hle' : (k.task k.running).remainTime ≤ schedPitInterval := hle
      show ((k.task k.running).remainTime / schedPitInterval).toNat ≤ 1
      rw [hc] at hle' ⊢
      simp only [schedPitInterval] at hle' ⊢
      omega
    rw [hs.slices_eq, tick_last hlast, Kernel.slices, hready]
    congr 1
    funext x
    by_cases hx : x = k.running
    · subst hx
      rw [Function.update_self, hrun]
      rfl
    · rw [Function.update_of_ne hx, hother x hx]
      rfl

/-- **A tick is a tick of the round robin**, whatever the state of the rest of the kernel. -/
theorem Sliced.pit (hs : k.Sliced) (noise : Noise) :
    ∃ k', k.pitInterruptHandler noise = .ok k' ∧ k'.Sliced ∧ Ticked k k' ∧
      k'.slices = tick ticksPerSlice k.slices := by
  have hsame : SameTurns k k.pitRender.pitAlarm :=
    k.sameTurns_pitRender.trans (sameTurns_pitAlarm _)
  have hnext : k.links.next (.head .runQueue) ≠ .head .runQueue := by
    rw [hs.rings.next_head_eq_item.mpr hs.head]
    simp
  rw [pitInterruptHandler, if_neg hnext, hsame.slices.symm]
  set m := k.pitRender.pitAlarm
  have hm := hsame.sliced hs
  have hleft : m.runningTask.remainTime = k.runningTask.remainTime := by
    rw [runningTask, hsame.running, hsame.remainTime, runningTask]
  -- the queue and the times are those before the GUI and the alarm
  have hticked : ∀ k', Ticked m k' → Ticked k k' := by
    intro k' h
    refine ⟨fun x hx => ?_, fun hlt => ?_, fun hle => ?_⟩
    · rw [h.others x (by rw [hsame.running]; exact hx), hsame.remainTime]
    · have := h.goesOn (by rw [hleft]; exact hlt)
      rwa [hsame.running, hleft, hsame.taskList] at this
    · have := h.switches (by rw [hleft]; exact hle)
      rwa [hsame.running, hsame.ready, hsame.taskList] at this
  rw [pitSchedule_eq hm]
  split
  · next hle =>
    obtain ⟨k', hk', hs', ht, hslices⟩ := hm.turn hle noise
    exact ⟨k', hk', hs', hticked k' ht, hslices⟩
  · next hlt =>
    obtain ⟨hs', ht, hslices⟩ := hm.used (not_le.mp hlt)
    exact ⟨_, rfl, hs', hticked _ ht, hslices⟩

/-! ## Runs -/

/-- A run of the PIT with the tasks that run at its ticks; between the ticks the run queue and
the times stay as they are. -/
inductive TickRun : Kernel → List TaskId → Kernel → Prop where
  | nil (k : Kernel) : TickRun k [] k
  | between {k k₁ k' : Kernel} {xs : List TaskId} (h : SameTurns k k₁) (hr : TickRun k₁ xs k') :
      TickRun k xs k'
  | tick {k k₁ k' : Kernel} {xs : List TaskId} (noise : Noise)
      (h : k.pitInterruptHandler noise = .ok k₁) (hr : TickRun k₁ xs k') :
      TickRun k (k.running :: xs) k'

theorem TickRun.append {xs ys : List TaskId} (h : TickRun k xs k') (h' : TickRun k' ys k'') :
    TickRun k (xs ++ ys) k'' := by
  induction h with
  | nil k => exact h'
  | between hsame hr ih => exact .between hsame (ih h')
  | tick noise hpit hr ih => exact .tick noise hpit (ih h')

/-- **A run is a run of the round robin.** -/
theorem Sliced.run {xs : List TaskId} (hr : TickRun k xs k') : k.Sliced →
    k'.Sliced ∧ xs = ran ticksPerSlice xs.length k.slices ∧
      k'.slices = (RoundRobin.tick ticksPerSlice)^[xs.length] k.slices ∧
      (k'.taskList .runQueue).Perm (k.taskList .runQueue) := by
  induction hr with
  | nil k => exact fun hs => ⟨hs, rfl, rfl, List.Perm.refl _⟩
  | @between k k₁ k' xs h hr ih =>
    intro hs
    rw [← h.slices, ← h.taskList]
    exact ih (h.sliced hs)
  | @tick k k₁ k' xs noise h hr ih =>
    intro hs
    obtain ⟨k₂, hk₂, hs₂, ht, hslices⟩ := hs.pit noise
    obtain rfl : k₁ = k₂ := Except.ok.inj (h.symm.trans hk₂)
    obtain ⟨hs', hran, hslices', hperm⟩ := ih hs₂
    rw [hslices] at hran hslices'
    refine ⟨hs', ?_, ?_, hperm.trans ?_⟩
    · rw [List.length_cons, ran, ← hran, hs.slices_eq]
      rfl
    · rw [List.length_cons, Function.iterate_succ_apply]
      exact hslices'
    · by_cases hle : k.runningTask.remainTime ≤ schedPitInterval
      · exact (ht.switches hle).2.2.2
      · rw [(ht.goesOn (not_le.mp hle)).2.2]

/-! ## The steps of the kernel -/

variable {img : FsImage} {l : Label} {labels : List Label} {f : Frame}

/-- A step of a run in which nothing happens but the PIT: a tick, or the way back to a program
on which no signal halts the task. -/
def OnlyTicks (k : Kernel) (l : Label) : Prop :=
  l.event = .pit ∨ l.event = .resume ∧ k.halts l = none

/-- A label of the PIT. -/
def isPit (l : Label) : Bool :=
  match l.event with
  | .pit => true
  | _ => false

/-- The PIT in a step. -/
theorem step_pit_run (he : l.event = .pit) (h : k.step img l = .ok k') :
    TickRun k [k.running] k' := by
  unfold step at h
  rw [he] at h
  cases hstack : k.runningTask.kstack with
  | cons f fs =>
    rw [hstack] at h
    cases h
  | nil =>
    rw [hstack] at h
    have henter : SameTurns k k.enterInterrupt := k.sameTurns_push rfl
    exact .between henter (.tick l.noise h (.nil k'))

theorem sameTurns_ret (k : Kernel) (value : ℤ) : SameTurns k (k.ret value) :=
  (k.quiet_ret value).toCalm.sameTurns fun _ => rfl

/-- A kernel function that is left touches neither the run queue nor the times. -/
theorem resumeFrame_sameTurns (h : k.resumeFrame noise f = .ok k')
    (hf : f = .signalCheck → k.runningTask.flags.kernelTask = false →
      k.runningTask.signals.fatal = none) : SameTurns k k' := by
  cases f with
  | executeLaunch w =>
    cases h
    exact .refl k
  | terminalRead nbytes =>
    have hcalm := (terminalReadEnd_lineRead h).toCalm
    obtain ⟨⟨cs, term⟩, -, hk⟩ := bind_eq_ok.mp h
    cases hk
    exact hcalm.sameTurns fun _ => rfl
  | rtcRead =>
    cases h
    exact k.sameTurns_ret 0
  | keyboardTail =>
    cases h
    obtain ⟨v, r, hmapped⟩ := k.terminalSetRunning_eq k.runningTask.terminal
    refine (k.quiet_terminalSetRunning _).toCalm.sameTurns fun x => ?_
    rw [hmapped]
    rfl
  | mouseTail flags dx dy =>
    cases h
    refine (k.quiet_mouseTail flags dx dy).toCalm.sameTurns fun x => ?_
    show ((k.guiHandleMouseMove _ _).1.task x).remainTime = _
    unfold guiHandleMouseMove
    split
    · rfl
    · split
      · rfl
      · simp only [apply_ite Prod.fst]
        split <;> rfl
  | syscallDone =>
    cases h
    exact k.sameTurns_modifyTask k.running (fun _ => ⟨⟨rfl, rfl, rfl, rfl, rfl, rfl⟩, rfl⟩)
      fun _ => rfl
  | signalCheck =>
    unfold resumeFrame at h
    simp only at h
    cases hkt : k.runningTask.flags.kernelTask with
    | true =>
      rw [if_pos hkt] at h
      cases h
      exact .refl k
    | false =>
      rw [if_neg (by simp [hkt])] at h
      rcases signalCheck_cases h with ⟨-, g, rfl⟩ | ⟨cause, g, hfatal, -⟩
      · exact k.sameTurns_modifySignals k.running g
      · rw [hf rfl hkt] at hfatal
        cases hfatal

/-- The way back to a program. -/
theorem step_resume_sameTurns (he : l.event = .resume) (hh : k.halts l = none)
    (h : k.step img l = .ok k') : SameTurns k k' := by
  unfold step at h
  rw [he] at h
  cases hstack : k.runningTask.kstack with
  | nil =>
    rw [hstack] at h
    cases h
  | cons f fs =>
    rw [hstack] at h
    have hpop : SameTurns k k.pop :=
      k.quiet_pop.toCalm.sameTurns (k.remainTime_modifyTask k.running fun _ => rfl)
    have hflags : k.pop.runningTask.flags = k.runningTask.flags := by simp [pop, runningTask]
    have hsignals : k.pop.runningTask.signals = k.runningTask.signals := by simp [pop, runningTask]
    refine hpop.trans (resumeFrame_sameTurns h ?_)
    rintro rfl hkt
    rw [hflags] at hkt
    rw [hsignals]
    simpa [halts, hstack, he, hkt] using hh

/-- **A run of steps with nothing but the PIT** is a run of ticks. -/
theorem run_ticks (labels : List Label) : ∀ {k : Kernel},
    Meets (fun k l => k.step img l) OnlyTicks k labels →
    Machine.run (fun k l => k.step img l) k labels = .ok k' →
    ∃ xs, TickRun k xs k' ∧ xs.length = labels.countP isPit := by
  induction labels with
  | nil =>
    intro k _ h
    cases h
    exact ⟨[], .nil k', rfl⟩
  | cons l labels ih =>
    intro k hm h
    obtain ⟨k₁, hstep, hrun⟩ := run_cons_ok.mp h
    obtain ⟨xs, hr, hlen⟩ := ih (hm.2 k₁ hstep) hrun
    rcases hm.1 with he | ⟨he, hh⟩
    · refine ⟨k.running :: xs, (step_pit_run he hstep).append hr, ?_⟩
      rw [List.countP_cons_of_pos (by rw [isPit, he]), List.length_cons, hlen]
    · refine ⟨xs, .between (step_resume_sameTurns he hh hstep) hr, ?_⟩
      rw [List.countP_cons_of_neg (by rw [isPit, he]; decide), hlen]

/-! ## The result -/

/-- **Round robin.**  What the ticks of the PIT do to the run queue. -/
structure TimeSliced (k : Kernel) : Prop where
  tick : ∀ xs k', TickRun k xs k' → ∀ noise, ∃ k'', k'.pitInterruptHandler noise = .ok k'' ∧
    Ticked k' k''
  order : ∀ xs k', TickRun k xs k' → xs <+: turns k.slices.left k.ready ++
    (List.replicate xs.length (turns (fun _ => ticksPerSlice) k.ready)).flatten
  members : ∀ xs k', TickRun k xs k' → (∀ x ∈ xs, x ∈ k.ready) ∧
    (k'.taskList .runQueue).Perm (k.taskList .runQueue)
  rounds : (∀ x ∈ k.ready, (k.task x).remainTime = schedTaskTime) → ∀ m xs ys k₁ k₂,
    TickRun k xs k₁ → xs.length = m * (k.ready.length * ticksPerSlice) → TickRun k₁ ys k₂ →
      ys.length = k.ready.length * ticksPerSlice → ∀ x ∈ k.ready, ys.count x = ticksPerSlice

/-- Every task of the queue has a tick left. -/
theorem Sliced.slices_pos (hs : k.Sliced) : ∀ x ∈ k.ready, 0 < k.slices.left x := by
  intro x hx
  obtain ⟨hpos, c, hc⟩ := hs.left x hx
  show 0 < ((k.task x).remainTime / schedPitInterval).toNat
  rw [hc] at hpos ⊢
  simp only [schedPitInterval] at hpos ⊢
  omega

theorem Sliced.order (hs : k.Sliced) {xs : List TaskId} (hr : TickRun k xs k') :
    xs <+: turns k.slices.left k.ready ++
      (List.replicate xs.length (turns (fun _ => ticksPerSlice) k.ready)).flatten := by
  obtain ⟨-, hran, -, -⟩ := hs.run hr
  have h : ran ticksPerSlice xs.length k.slices <+: _ :=
    ran_prefix_schedule hs.nodup (List.ne_nil_of_mem hs.running_mem) (by decide) hs.slices_pos _
  rwa [← hran] at h

/-- **The PIT serves the tasks round robin.** -/
theorem round_robin (hs : k.Sliced) : k.TimeSliced where
  tick := by
    intro xs k' hr noise
    obtain ⟨k'', hk, -, ht, -⟩ := (hs.run hr).1.pit noise
    exact ⟨k'', hk, ht⟩
  order := fun xs k' hr => hs.order hr
  members := by
    intro xs k' hr
    refine ⟨fun x hx => ?_, (hs.run hr).2.2.2⟩
    rcases List.mem_append.mp ((hs.order hr).subset hx) with hx | hx
    · exact mem_of_mem_turns hx
    · obtain ⟨ys, hys, hxy⟩ := List.mem_flatten.mp hx
      rw [List.eq_of_mem_replicate hys] at hxy
      exact mem_of_mem_turns hxy
  rounds := by
    intro hfull m xs ys k₁ k₂ hr₁ hlen₁ hr₂ hlen₂ x hx
    have hleft : ∀ x ∈ k.ready, k.slices.left x = ticksPerSlice := by
      intro x hx
      show ((k.task x).remainTime / schedPitInterval).toNat = ticksPerSlice
      rw [hfull x hx, ticksPerSlice]
    obtain ⟨hs₁, -, hslices, -⟩ := hs.run hr₁
    obtain ⟨-, hran, -, -⟩ := hs₁.run hr₂
    -- the rounds before this one bring the queue and the slices back
    have hsame : k₁.slices = k.slices := by
      rw [hslices, hlen₁]
      exact (run_rounds hs.nodup (by decide) hleft m).1
    have hround : ran ticksPerSlice (1 * (k.ready.length * ticksPerSlice)) k.slices = _ :=
      (run_rounds hs.nodup (by decide) hleft 1).2
    rw [Nat.one_mul] at hround
    rw [hran, hlen₂, hsame, hround, List.replicate_one, List.flatten_singleton,
      count_turns hs.nodup hx]

/-- The running task, and the tasks of the run queue with what the PIT looks at. -/
def queueView (k : Kernel) : TaskId × List (TaskId × Bool × ℤ × ℤ) :=
  (k.running, (k.taskList .runQueue).map fun x =>
    (x, (k.task x).flags.idleTask, (k.task x).remainTime, (k.task x).pageId))

/-- The shell runs, and behind it stand the init task and the idle task. -/
theorem round_robin_shell : ∃ k, Machine.run (fun k l => k.step programs l) start
    (traceOf (firstTick ++ openShell)) = .ok k ∧
      k.queueView = (2, [(2, false, 50, 0), (0, false, 50, -1), (1, true, 0, -1)]) ∧
      k.TimeSliced := by
  have h : (Machine.run (fun k l => k.step programs l) start
      (traceOf (firstTick ++ openShell))).toOption.map queueView =
        some (2, [(2, false, 50, 0), (0, false, 50, -1), (1, true, 0, -1)]) := by
    decide +kernel
  obtain ⟨k, hk, hview⟩ := toOption_map_eq_some.mp h
  obtain ⟨-, st, place, hs, -⟩ := run_inOrder (by decide +kernel) hk
  have hlists := hs.listsWellFormed
  refine ⟨k, hk, hview, round_robin ?_⟩
  obtain ⟨hrun, hmap⟩ := Prod.mk.inj hview
  have hqueue : k.taskList .runQueue = [2, 0, 1] := by
    simpa [List.map_map, Function.comp_def] using congrArg (List.map Prod.fst) hmap
  rw [hqueue] at hmap
  simp only [List.map_cons, List.map_nil, List.cons.injEq, Prod.mk.injEq, true_and,
    and_true] at hmap
  obtain ⟨⟨hi₂, hr₂, hp₂⟩, ⟨hi₀, hr₀, hp₀⟩, hi₁, -, -⟩ := hmap
  have hready : ∀ x ∈ k.ready, x = 2 ∨ x = 0 := by
    intro x hx
    obtain ⟨hx, hbusy⟩ := mem_ready.mp hx
    rw [hqueue] at hx
    simp only [List.mem_cons, List.not_mem_nil, or_false] at hx
    rcases hx with rfl | rfl | rfl
    · exact Or.inl rfl
    · exact Or.inr rfl
    · rw [hi₁] at hbusy
      cases hbusy
  refine ⟨hlists.rings, by rw [hqueue, hrun]; rfl, by rw [runningTask, hrun, hi₂],
    ⟨1, by rw [hqueue]; decide, hi₁, fun y hy hi => ?_⟩, fun x hx => ?_, fun x hx => ?_,
    fun x hx => ?_⟩
  · rw [hqueue] at hy
    simp only [List.mem_cons, List.not_mem_nil, or_false] at hy
    rcases hy with rfl | rfl | rfl
    · rw [hi₂] at hi
      cases hi
    · rw [hi₀] at hi
      cases hi
    · rfl
  · rcases hready x hx with rfl | rfl
    · rw [hr₂]
      decide
    · rw [hr₀]
      decide
  · by_contra hv
    exact hlists.gone x (Bool.not_eq_true _ ▸ hv) _ (mem_ready.mp hx).1
  · rcases hready x hx with rfl | rfl
    · rw [hp₂]
      decide
    · rw [hp₀]
      decide

end Kernel

end AuroraOS
