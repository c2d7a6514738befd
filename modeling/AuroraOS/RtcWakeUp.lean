/-
# The wake-up by the RTC

One pass of `rtc_interrupt_handler` over the tasks that wait, on a list of any length: what
it does to every task and to the lists.  A task leaves the list in the middle of the
walk, which goes on from the successor that has been read before.

A run is any order of interrupts, of tasks that go to sleep, and of whatever else leaves
the waiting tasks alone.
-/
import AuroraOS.TaskLists

namespace AuroraOS

open Ring Machine

namespace Kernel

variable {k k' m : Kernel} {noise : Noise} {x y z : TaskId} {q : Sentinel → List TaskId}

/-! ## One task -/

theorem rtcTick_waits (w : ℕ) (h : (m.task x).rtc.counter ≠ 1) :
    m.rtcTick w x = .ok (m.modifyTask x tickedTask, w) := by
  have hc : ((m.modifyTask x tickedTask).task x).rtc.counter ≠ 0 := by
    simp only [modifyTask_task, Function.update_self, tickedTask]
    omega
  exact if_neg hc

/-- The state behind the wake-up of a task with parent `p`. -/
def rtcWoken (m : Kernel) (x p : TaskId) : Kernel :=
  { ((m.modifyTask x tickedTask).modifyTask p rtcCleared).schedRefillTime x with
    links := m.links.move (.item x) (.head .runQueue) (m.links.next (.head .runQueue)) }

theorem rtcTick_wakes (w : ℕ) {p : TaskId} (h : (m.task x).rtc.counter = 1)
    (hp : (m.task x).parent = some p) : m.rtcTick w x = .ok (m.rtcWoken x p, w + 1) := by
  have hc : ((m.modifyTask x tickedTask).task x).rtc.counter = 0 := by
    simp only [modifyTask_task, Function.update_self, tickedTask]
    omega
  have hparent : ((m.modifyTask x tickedTask).task x).parent = some p := by
    simp only [modifyTask_task, Function.update_self, tickedTask, hp]
  refine (if_pos hc).trans ?_
  split
  · next hn => exact absurd (hparent.symm.trans hn) (Option.some_ne_none p)
  · next p' hp' =>
    obtain rfl : p = p' := Option.some.inj (hparent.symm.trans hp')
    rfl

/-! ## One pass -/

/-- The counter of the task has come to its last interrupt. -/
def expires (m : Kernel) (x : TaskId) : Bool := (m.task x).rtc.counter = 1

/-- Some task of a list expires, and has the parent `y`. -/
def clears (m : Kernel) (ys : List TaskId) (y : TaskId) : Bool :=
  ys.any fun z => m.expires z && (m.task z).parent = some y

/-- A task behind a pass over the tasks `ys`. -/
def rtcPassed (m : Kernel) (ys : List TaskId) (y : TaskId) : Task :=
  { m.task y with
    flags := { (m.task y).flags with waitingRtc := (m.task y).flags.waitingRtc && !m.clears ys y }
    remainTime := if y ∈ ys ∧ m.expires y then schedTaskTime else (m.task y).remainTime
    rtc := { (m.task y).rtc with
      counter := if y ∈ ys then (m.task y).rtc.counter - 1 else (m.task y).rtc.counter } }

/-- The lists behind a pass over `ys`, the last ones of the tasks that wait. -/
def rtcPassedLists (m : Kernel) (q : Sentinel → List TaskId) (pre ys : List TaskId) :
    Sentinel → List TaskId
  | .runQueue => (ys.filter m.expires).reverse ++ q .runQueue
  | .rtcWaitList => pre ++ ys.filter fun y => !m.expires y
  | s => q s

/-- The state `m'` is `m` behind a pass over `ys`. -/
structure RtcPassed (m : Kernel) (q : Sentinel → List TaskId) (pre ys : List TaskId) (m' : Kernel) :
    Prop where
  task : m'.task = m.rtcPassed ys
  rings : Rings m'.links (m.rtcPassedLists q pre ys)
  rest : m' = { m with task := m'.task, links := m'.links }

theorem rtcPassed_nil (m : Kernel) : m.rtcPassed [] = m.task := by
  funext y
  simp [rtcPassed, clears]

/-- Two states agree on whether the tasks of a list expire, and on whose parents they clear. -/
theorem clears_congr {ys : List TaskId}
    (h : ∀ z ∈ ys, (m.task z).rtc.counter = (k.task z).rtc.counter ∧
    (m.task z).parent = (k.task z).parent) (y : TaskId) : m.clears ys y = k.clears ys y := by
  rw [clears, clears, Bool.eq_iff_iff, List.any_eq_true, List.any_eq_true]
  refine exists_congr fun z => and_congr_right fun hz => ?_
  rw [expires, expires, (h z hz).1, (h z hz).2]

/-- A task that goes on waiting. -/
theorem rtcPassed_waits (h : m.expires x = false) {ys : List TaskId} (hx : x ∉ ys) :
    (m.modifyTask x tickedTask).rtcPassed ys = m.rtcPassed (x :: ys) := by
  have hne : ∀ z ∈ ys, z ≠ x := by
    rintro z hz rfl
    exact hx hz
  have hclears : ∀ y, (m.modifyTask x tickedTask).clears ys y = m.clears (x :: ys) y := by
    intro y
    have hcongr : (m.modifyTask x tickedTask).clears ys y = m.clears ys y := by
      refine clears_congr (fun z hz => ?_) y
      rw [modifyTask_task, Function.update_of_ne (hne z hz)]
      exact ⟨rfl, rfl⟩
    rw [hcongr, clears, clears, List.any_cons, h, Bool.false_and, Bool.false_or]
  funext y
  by_cases hy : y = x
  · subst hy
    simp [rtcPassed, hclears, hx, tickedTask, h]
  · have htask : (m.modifyTask x tickedTask).task y = m.task y := Function.update_of_ne hy _ _
    simp only [rtcPassed, hclears, htask, expires, List.mem_cons, hy, false_or]

/-- The tasks behind a wake-up. -/
theorem rtcWoken_task (m : Kernel) (x p y : TaskId) :
    (m.rtcWoken x p).task y = { m.task y with
      flags := { (m.task y).flags with
        waitingRtc := (m.task y).flags.waitingRtc && !decide (p = y) }
      remainTime := if y = x then schedTaskTime else (m.task y).remainTime
      rtc := { (m.task y).rtc with
        counter := if y = x then (m.task y).rtc.counter - 1 else (m.task y).rtc.counter } } := by
  by_cases hx : y = x
  · subst hx
    by_cases hp : p = y
    · subst hp
      simp [rtcWoken, schedRefillTime, tickedTask, rtcCleared]
    · have hyp : y ≠ p := fun he => hp he.symm
      simp [rtcWoken, schedRefillTime, tickedTask, hp, hyp]
  · by_cases hp : p = y
    · subst hp
      simp [rtcWoken, schedRefillTime, rtcCleared, hx]
    · have hyp : y ≠ p := fun he => hp he.symm
      simp [rtcWoken, schedRefillTime, hp, hx, hyp]

/-- A task that is woken. -/
theorem rtcPassed_wakes {p : TaskId} (h : m.expires x = true) (hp : (m.task x).parent = some p)
    {ys : List TaskId} (hx : x ∉ ys) : (m.rtcWoken x p).rtcPassed ys = m.rtcPassed (x :: ys) := by
  have hne : ∀ z ∈ ys, z ≠ x := by
    rintro z hz rfl
    exact hx hz
  have hclears : ∀ y, (m.rtcWoken x p).clears ys y = m.clears ys y := by
    refine clears_congr fun z hz => ?_
    rw [rtcWoken_task]
    exact ⟨if_neg (hne z hz), rfl⟩
  have hcons : ∀ y, m.clears (x :: ys) y = (decide (p = y) || m.clears ys y) := by
    intro y
    rw [clears, clears, List.any_cons, h, hp, Bool.true_and]
    simp
  funext y
  simp only [rtcPassed, hclears, hcons, expires, rtcWoken_task, Bool.not_or, Bool.and_assoc,
    List.mem_cons]
  by_cases hy : y = x
  · subst hy
    have hone : (m.task y).rtc.counter = 1 := by simpa [expires] using h
    simp [hx, hone]
  · simp only [hy, false_or, if_false]

theorem filter_expires_congr {ys : List TaskId}
    (h : ∀ z ∈ ys, (m.task z).rtc.counter = (k.task z).rtc.counter) :
    ys.filter m.expires = ys.filter k.expires ∧
      (ys.filter fun y => !m.expires y) = ys.filter fun y => !k.expires y := by
  have hsame : ∀ z ∈ ys, m.expires z = k.expires z := by
    intro z hz
    rw [expires, expires, h z hz]
  exact ⟨List.filter_congr hsame, List.filter_congr fun z hz => by rw [hsame z hz]⟩

/-- **The loop of the RTC.**  The induction is on the tasks left to visit; `pre` are the
tasks in front of them that go on waiting. -/
theorem rtcLoop_pass {ys : List TaskId} : ∀ {n w : ℕ} {m : Kernel} {pre : List TaskId}
    {q : Sentinel → List TaskId}, Rings m.links q → q .rtcWaitList = pre ++ ys →
    (∀ y ∈ ys, (m.task y).parent ≠ none) → ys.length ≤ n →
    ∃ m', rtcLoop n m w (rtcNode ys) = .ok (m', w + (ys.filter m.expires).length) ∧
      RtcPassed m q pre ys m' := by
  induction ys with
  | nil =>
    intro n w m pre q hq hys _ _
    refine ⟨m, ?_, m.rtcPassed_nil.symm, ?_, rfl⟩
    · unfold rtcLoop
      rw [if_pos (by rw [rtcNode]; rfl)]
      rfl
    · have hlists : m.rtcPassedLists q pre [] = q := by
        funext s
        cases s <;> simp [rtcPassedLists, hys]
      rw [hlists]
      exact hq
  | cons x ys ih =>
    intro n w m pre q hq hys hparent hn
    cases n with
    | zero => exact absurd hn (Nat.not_succ_le_zero _)
    | succ n =>
      have hnd := hq.nodup .rtcWaitList
      rw [hys] at hnd
      have hx : x ∉ ys := (List.nodup_cons.mp (List.nodup_append.mp hnd).2.1).1
      have hpre : x ∉ pre := fun hm => List.disjoint_of_nodup_append hnd hm List.mem_cons_self
      have hne : ∀ z ∈ ys, z ≠ x := by
        rintro z hz rfl
        exact hx hz
      have hxr : x ∈ q .rtcWaitList := by rw [hys]; simp
      have hother : ∀ s, s ≠ .rtcWaitList → x ∉ q s := fun s hs hm => hs (hq.unique s _ x hm hxr)
      have hloop : ∀ {m₁ w₁}, m.rtcTick w x = .ok (m₁, w₁) →
          rtcLoop (n + 1) m w (rtcNode (x :: ys)) = rtcLoop n m₁ w₁ (rtcNode ys) := by
        intro m₁ w₁ htick
        have hnext : m.links.next (rtcNode (x :: ys)) = rtcNode ys := rtcNode_next hq hys
        rw [rtcLoop, if_neg (by rw [rtcNode]; simp)]
        simp only [hnext]
        show (m.rtcTick w x >>= fun r => rtcLoop n r.1 r.2 (rtcNode ys)) = _
        rw [htick]
        rfl
      have hlen : ys.length ≤ n := Nat.le_of_succ_le_succ hn
      by_cases hc : (m.task x).rtc.counter = 1
      · -- the task goes to the run queue
        have he : m.expires x = true := by simp [expires, hc]
        obtain ⟨p, hp⟩ := Option.ne_none_iff_exists'.mp (hparent x List.mem_cons_self)
        have htask : ∀ z ∈ ys, ((m.rtcWoken x p).task z).rtc.counter = (m.task z).rtc.counter ∧
            ((m.rtcWoken x p).task z).parent = (m.task z).parent := by
          intro z hz
          rw [rtcWoken_task]
          exact ⟨if_neg (hne z hz), rfl⟩
        have hhead : m.links.next (.head .runQueue) ≠ .item x := by
          intro hnext
          exact hother .runQueue (by decide) (List.mem_of_head? (hq.next_head_eq_item.mp hnext))
        have hmoved : Rings (m.rtcWoken x p).links _ := hq.move_head hxr hhead
        set q₁ := Function.update (fun s => (q s).erase x) Sentinel.runQueue
          (x :: (q .runQueue).erase x) with hq₁
        have hys₁ : q₁ .rtcWaitList = pre ++ ys := by
          rw [hq₁, Function.update_of_ne (by decide), hys, List.erase_append_right _ hpre,
            List.erase_cons_head]
        obtain ⟨m', hm', hpass⟩ := ih (w := w + 1) hmoved hys₁
          (fun y hy => (htask y hy).2 ▸ hparent y (List.mem_cons_of_mem x hy)) hlen
        obtain ⟨hfilter, hfilter'⟩ := filter_expires_congr fun z hz => (htask z hz).1
        have hlists : (m.rtcWoken x p).rtcPassedLists q₁ pre ys =
          m.rtcPassedLists q pre (x :: ys) := by
          funext s
          cases s with
          | runQueue =>
            simp only [rtcPassedLists, hfilter, hq₁, Function.update_self,
              List.erase_of_not_mem (hother .runQueue (by decide)), List.filter_cons, he, if_true,
              List.reverse_cons, List.append_assoc, List.singleton_append]
          | rtcWaitList => simp [rtcPassedLists, hfilter', he]
          | wait4childList => simp [rtcPassedLists, hq₁, List.erase_of_not_mem (hother _ _)]
          | terminalWaitList => simp [rtcPassedLists, hq₁, List.erase_of_not_mem (hother _ _)]
          | tempList => simp [rtcPassedLists, hq₁, List.erase_of_not_mem (hother _ _)]
        refine ⟨m', ?_, ?_, hlists ▸ hpass.rings, hpass.rest⟩
        · rw [hloop (rtcTick_wakes w hc hp), hm', hfilter, List.filter_cons, he, if_pos rfl,
            List.length_cons, Nat.add_assoc, Nat.add_comm 1]
        · rw [hpass.task, rtcPassed_wakes he hp hx]
      · -- the task stays on the list
        have he : m.expires x = false := by simp [expires, hc]
        have htask : ∀ z ∈ ys, (m.modifyTask x tickedTask).task z = m.task z := by
          intro z hz
          exact Function.update_of_ne (hne z hz) _ _
        have hys' : q .rtcWaitList = (pre ++ [x]) ++ ys := by rw [hys]; simp
        obtain ⟨m', hm', hpass⟩ := ih (m := m.modifyTask x tickedTask) (w := w) hq hys'
          (fun y hy => (htask y hy).symm ▸ hparent y (List.mem_cons_of_mem x hy)) hlen
        have hcounter : ∀ z ∈ ys, ((m.modifyTask x tickedTask).task z).rtc.counter =
            (m.task z).rtc.counter := by
          intro z hz
          rw [htask z hz]
        obtain ⟨hfilter, hfilter'⟩ := filter_expires_congr hcounter
        have hlists : (m.modifyTask x tickedTask).rtcPassedLists q (pre ++ [x]) ys =
            m.rtcPassedLists q pre (x :: ys) := by
          funext s
          cases s <;> simp [rtcPassedLists, hfilter, hfilter', he]
        refine ⟨m', ?_, ?_, hlists ▸ hpass.rings, hpass.rest⟩
        · rw [hloop (rtcTick_waits w hc), hm', hfilter, List.filter_cons, he, if_neg (by simp)]
        · rw [hpass.task, rtcPassed_waits he hx]

/-! ## The handler -/

theorem taskList_eq (hq : Rings k.links q) : k.taskList = q := by
  funext s
  have hwalk := hq.walk_eq s
  rw [Fintype.card_fin] at hwalk
  exact hwalk

/-- The task lists are rings, and every task that waits for the RTC has a parent. -/
structure RtcWaiting (k : Kernel) : Prop where
  rings : Rings k.links k.taskList
  parent : ∀ y ∈ k.taskList .rtcWaitList, (k.task y).parent ≠ none

/-- **One pass of the handler.**  The counters of the waiting tasks go down by one.  Those
that come to 0 leave the list for the head of the run queue, the last one first, with a
full time slice; the others and the old run queue keep their order. -/
structure RtcPass (k m : Kernel) : Prop where
  rings : Rings m.links m.taskList
  waiting : m.taskList .rtcWaitList = (k.taskList .rtcWaitList).filter fun y => !k.expires y
  running : m.taskList .runQueue =
    ((k.taskList .rtcWaitList).filter k.expires).reverse ++ k.taskList .runQueue
  others : ∀ s, s ≠ .runQueue → s ≠ .rtcWaitList → m.taskList s = k.taskList s
  task : m.task = k.rtcPassed (k.taskList .rtcWaitList)
  rest : m = { k with task := m.task, links := m.links }

/-- **The handler** makes one pass, and then the scheduler chooses a task if one was woken. -/
theorem rtcInterruptHandler_pass (hw : k.RtcWaiting) :
    ∃ m, RtcPass k m ∧ ∀ noise, k.rtcInterruptHandler noise =
      if (k.taskList .rtcWaitList).filter k.expires = [] then .ok m
      else m.schedLaunchToCurrentHead noise := by
  have hlen : (k.taskList .rtcWaitList).length ≤ taskMaxCount := by
    have := (hw.rings.nodup .rtcWaitList).length_le_card
    rwa [Fintype.card_fin] at this
  obtain ⟨m, hm, hpass⟩ := rtcLoop_pass (w := 0) hw.rings (List.nil_append _).symm hw.parent hlen
  have hlists := taskList_eq hpass.rings
  refine ⟨m, ⟨hlists ▸ hpass.rings, ?_, ?_, ?_, hpass.task, hpass.rest⟩, fun noise => ?_⟩
  · rw [hlists]
    rfl
  · rw [hlists]
    rfl
  · intro s hrun hwait
    rw [hlists]
    cases s <;> first | rfl | contradiction
  · have hnode : k.links.next (.head .rtcWaitList) = rtcNode (k.taskList .rtcWaitList) :=
      hw.rings.next_head _
    rw [rtcInterruptHandler, hnode, hm, ok_bind, Nat.zero_add]
    by_cases he : (k.taskList .rtcWaitList).filter k.expires = []
    · rw [if_pos he, he]
      exact if_neg (Nat.lt_irrefl 0)
    · rw [if_neg he]
      exact if_pos (List.length_pos_iff.mpr he)

/-! ## Steps -/

/-- The tasks that wait for the RTC are left alone: they are the same, in the same order,
with the same counters and parents. -/
structure SameWaits (k k' : Kernel) : Prop where
  rings : Rings k'.links k'.taskList
  list : k'.taskList .rtcWaitList = k.taskList .rtcWaitList
  counter : ∀ y ∈ k.taskList .rtcWaitList, (k'.task y).rtc.counter = (k.task y).rtc.counter
  parent : ∀ y ∈ k.taskList .rtcWaitList, (k'.task y).parent = (k.task y).parent

/-- **What can happen while tasks wait for the RTC**; `true` is an interrupt of the RTC. -/
inductive RtcStep (k k' : Kernel) : Bool → Prop where
  /-- An interrupt. -/
  | interrupt (noise : Noise) (h : k.rtcInterruptHandler noise = .ok k') : RtcStep k k' true
  /-- The running task, which is on the run queue, reads from the RTC. -/
  | sleep (noise : Noise) (hr : k.running ∈ k.taskList .runQueue)
      (hp : k.runningTask.parent ≠ none) (h : k.systemRtcRead noise = .ok k') : RtcStep k k' false
  /-- Anything that leaves the waiting tasks alone. -/
  | elsewhere (h : SameWaits k k') : RtcStep k k' false

/-- A run, with its interrupts marked by `true`. -/
inductive RtcRun : Kernel → List Bool → Kernel → Prop where
  | nil (k : Kernel) : RtcRun k [] k
  | cons {k k₁ k' : Kernel} {b : Bool} {bs : List Bool} (h : RtcStep k k₁ b)
      (hr : RtcRun k₁ bs k') : RtcRun k (b :: bs) k'

/-- The scheduler only moves the idle task inside the run queue. -/
theorem Scheduled.rings (h : Scheduled noise k k') (hq : Rings k.links q) :
    ∃ q', Rings k'.links q' ∧ (∀ s, s ≠ .runQueue → q' s = q s) ∧
      ∀ x, x ∈ q' .runQueue ↔ x ∈ q .runQueue := by
  rcases h.links with he | ⟨z, -, hz, hnot, he⟩
  · exact ⟨q, he ▸ hq, fun _ _ => rfl, fun _ => Iff.rfl⟩
  · have hzq : z ∈ q .runQueue := List.mem_of_head? (hq.next_head_eq_item.mp hz)
    have hback : k.links.next (k.links.prev (.head .runQueue)) = .head .runQueue :=
      (hq.next_prev (Or.inl rfl)).2
    have hne : k.links.prev (.head .runQueue) ≠ .item z := by
      intro hprev
      apply hnot
      rw [← hprev, hback]
    rw [hback] at he
    refine ⟨_, he ▸ hq.move_last hzq hne, ?_, ?_⟩
    · intro s hs
      have hzs : z ∉ q s := fun hm => hs (hq.unique s _ z hm hzq)
      rw [Function.update_of_ne hs, List.erase_of_not_mem hzs]
    · intro x
      rw [Function.update_self, List.mem_append, List.mem_singleton,
        (hq.nodup .runQueue).mem_erase_iff]
      by_cases hx : x = z
      · subst hx
        simp [hzq]
      · simp [hx]

/-- An interrupt, for the tasks that wait. -/
theorem RtcWaiting.interrupt (hw : k.RtcWaiting) (h : k.rtcInterruptHandler noise = .ok k') :
    k'.RtcWaiting ∧ ∀ x ∈ k.taskList .rtcWaitList,
      ((k.task x).rtc.counter = 1 → x ∈ k'.taskList .runQueue) ∧
      ((k.task x).rtc.counter ≠ 1 → x ∈ k'.taskList .rtcWaitList ∧
        (k'.task x).rtc.counter = (k.task x).rtc.counter - 1) := by
  obtain ⟨m, hpass, hhandler⟩ := rtcInterruptHandler_pass hw
  have hlaunch : k'.task = m.task ∧ ∃ q, Rings k'.links q ∧
      (∀ s, s ≠ .runQueue → q s = m.taskList s) ∧
      ∀ x, x ∈ q .runQueue ↔ x ∈ m.taskList .runQueue := by
    rw [hhandler] at h
    split at h
    · cases h
      exact ⟨rfl, _, hpass.rings, fun _ _ => rfl, fun _ => Iff.rfl⟩
    · have hs := schedLaunch_scheduled h
      exact ⟨hs.task, hs.rings hpass.rings⟩
  obtain ⟨htask, q, hq, hlists, hrun⟩ := hlaunch
  obtain rfl := taskList_eq hq
  have hcounter : ∀ y ∈ k.taskList .rtcWaitList,
      (k'.task y).rtc.counter = (k.task y).rtc.counter - 1 := by
    intro y hy
    rw [htask, hpass.task]
    exact if_pos hy
  have hrtc : k'.taskList .rtcWaitList = _ := (hlists .rtcWaitList (by decide)).trans hpass.waiting
  refine ⟨⟨hq, fun y hy => ?_⟩, fun x hx => ⟨fun hc => ?_, fun hc => ⟨?_, hcounter x hx⟩⟩⟩
  · have hparent : (k'.task y).parent = (k.task y).parent := by
      rw [htask, hpass.task]
      rfl
    rw [hrtc] at hy
    rw [hparent]
    exact hw.parent y (List.mem_of_mem_filter hy)
  · rw [hrun, hpass.running]
    refine List.mem_append_left _ ?_
    rw [List.mem_reverse, List.mem_filter]
    exact ⟨hx, by simp [expires, hc]⟩
  · rw [hrtc, List.mem_filter]
    exact ⟨hx, by simp [expires, hc]⟩

/-- A read from the RTC: the running task waits with the counter that it has loaded, and the
others are left alone. -/
theorem RtcWaiting.sleep (hw : k.RtcWaiting) (hr : k.running ∈ k.taskList .runQueue)
    (hp : k.runningTask.parent ≠ none) (h : k.systemRtcRead noise = .ok k') :
    k'.RtcWaiting ∧ (∀ x ∈ k.taskList .rtcWaitList, x ∈ k'.taskList .rtcWaitList ∧
        (k'.task x).rtc.counter = (k.task x).rtc.counter) ∧
      (k.runningTask.rtc.targetFreq ≠ -1 → k.running ∈ k'.taskList .rtcWaitList ∧
        rtcRefill k.runningTask.rtc.targetFreq = .ok (k'.task k.running).rtc.counter) := by
  rcases systemRtcRead_eq h with ⟨hfreq, rfl⟩ | ⟨hfreq, counter, hcounter, hs⟩
  · exact ⟨⟨hw.rings, hw.parent⟩, fun x hx => ⟨hx, rfl⟩, fun hne => absurd hfreq hne⟩
  · have hnot : ∀ s, s ≠ .runQueue → k.running ∉ k.taskList s :=
      fun s hne hm => hne (hw.rings.unique s _ _ hm hr)
    have hhead : k.links.next (.head .rtcWaitList) ≠ .item k.running := by
      intro hnext
      exact hnot .rtcWaitList (by decide) (List.mem_of_head? (hw.rings.next_head_eq_item.mp hnext))
    have hmoved : Rings (k.asleep .rtcWaitList (rtcTask counter)).links _ :=
      hw.rings.move_head hr hhead
    obtain ⟨q, hq, hlists, -⟩ := hs.rings hmoved
    obtain rfl := taskList_eq hq
    have hrtc : k'.taskList .rtcWaitList = k.running :: k.taskList .rtcWaitList := by
      rw [hlists _ (by decide), Function.update_self, List.erase_of_not_mem (hnot _ (by decide))]
    have hother : ∀ y ∈ k.taskList .rtcWaitList, k'.task y = k.task y := by
      intro y hy
      have hne : y ≠ k.running := by
        rintro rfl
        exact hnot .rtcWaitList (by decide) hy
      rw [hs.task]
      exact Function.update_of_ne hne _ _
    have hself : k'.task k.running = rtcTask counter k.runningTask := by
      rw [hs.task]
      exact Function.update_self _ _ _
    refine ⟨⟨hq, fun y hy => ?_⟩, fun x hx => ?_, fun _ => ⟨?_, ?_⟩⟩
    · rw [hrtc, List.mem_cons] at hy
      rcases hy with rfl | hy
      · rw [hself]
        exact hp
      · rw [hother y hy]
        exact hw.parent y hy
    · rw [hrtc, hother x hx]
      exact ⟨List.mem_cons_of_mem _ hx, rfl⟩
    · rw [hrtc]
      exact List.mem_cons_self
    · rw [hcounter, hself]
      rfl

/-- **One step, for a task that waits**: an interrupt takes one off its counter or wakes it,
and nothing else touches it. -/
theorem RtcWaiting.step {b : Bool} (hw : k.RtcWaiting) (h : RtcStep k k' b) :
    k'.RtcWaiting ∧ ∀ x ∈ k.taskList .rtcWaitList,
      ((k.task x).rtc.counter = 1 → b = true → x ∈ k'.taskList .runQueue) ∧
      ((k.task x).rtc.counter ≠ 1 ∨ b = false → x ∈ k'.taskList .rtcWaitList ∧
        (k'.task x).rtc.counter = (k.task x).rtc.counter - if b then 1 else 0) := by
  cases h with
  | interrupt noise h =>
    obtain ⟨hw', hx⟩ := hw.interrupt h
    refine ⟨hw', fun x hm => ⟨fun hc _ => (hx x hm).1 hc, fun hc => ?_⟩⟩
    exact (hx x hm).2 (hc.resolve_right Bool.noConfusion)
  | sleep noise hr hp h =>
    obtain ⟨hw', hx, -⟩ := hw.sleep hr hp h
    refine ⟨hw', fun x hm => ⟨fun _ hb => Bool.noConfusion hb, fun _ => ?_⟩⟩
    rw [(hx x hm).2]
    exact ⟨(hx x hm).1, (sub_zero _).symm⟩
  | elsewhere h =>
    have hw' : k'.RtcWaiting := by
      refine ⟨h.rings, fun y hy => ?_⟩
      rw [h.list] at hy
      rw [h.parent y hy]
      exact hw.parent y hy
    refine ⟨hw', fun x hm => ⟨fun _ hb => Bool.noConfusion hb, fun _ => ?_⟩⟩
    rw [h.list, h.counter x hm]
    exact ⟨hm, (sub_zero _).symm⟩

/-- **A run, for a task that waits** with the counter `c`: before the `c`-th interrupt it goes
on waiting, and that interrupt wakes it. -/
structure WokenAt (x : TaskId) (c : ℤ) (bs : List Bool) (k' : Kernel) : Prop where
  before : (bs.count true : ℤ) < c → x ∈ k'.taskList .rtcWaitList ∧
    (k'.task x).rtc.counter = c - bs.count true
  at_last : ∀ bs', bs = bs' ++ [true] → (bs.count true : ℤ) = c → x ∈ k'.taskList .runQueue

theorem RtcWaiting.run {bs : List Bool} (hr : RtcRun k bs k') : k.RtcWaiting →
    ∀ x ∈ k.taskList .rtcWaitList, 1 ≤ (k.task x).rtc.counter →
      WokenAt x (k.task x).rtc.counter bs k' := by
  induction hr with
  | nil k =>
    intro hw x hx hc
    refine ⟨fun _ => ⟨hx, (sub_zero _).symm⟩, fun bs' hbs => ?_⟩
    exact absurd hbs.symm (List.append_ne_nil_of_right_ne_nil _ (List.cons_ne_nil _ _))
  | @cons k k₁ k' b bs h hr ih =>
    intro hw x hx hc
    obtain ⟨hw₁, hstep⟩ := hw.step h
    obtain ⟨hwake, hwait⟩ := hstep x hx
    have hcount : ((b :: bs).count true : ℤ) = bs.count true + if b then 1 else 0 := by
      cases b <;> simp
    by_cases hlast : (k.task x).rtc.counter = 1 ∧ b = true
    · -- the task is woken here
      obtain ⟨hone, rfl⟩ := hlast
      rw [if_pos rfl] at hcount
      refine ⟨fun hlt => by omega, fun bs' hbs hlast => ?_⟩
      have hzero : bs.count true = 0 := by omega
      cases bs' with
      | nil =>
        obtain rfl : bs = [] := (List.cons.inj hbs).2
        cases hr
        exact hwake hone rfl
      | cons b' bs' =>
        obtain rfl : bs = bs' ++ [true] := (List.cons.inj hbs).2
        simp at hzero
    · have hgoes : (k.task x).rtc.counter ≠ 1 ∨ b = false := by
        rw [← Bool.not_eq_true]
        exact not_and_or.mp hlast
      obtain ⟨hx₁, hc₁⟩ := hwait hgoes
      have hpos : 1 ≤ (k₁.task x).rtc.counter := by
        cases b with
        | false =>
          rw [hc₁, if_neg Bool.false_ne_true, sub_zero]
          exact hc
        | true =>
          have hne := hgoes.resolve_right Bool.noConfusion
          rw [hc₁, if_pos rfl]
          omega
      have hwoken := ih hw₁ x hx₁ hpos
      rw [hc₁] at hwoken
      refine ⟨fun hlt => ?_, fun bs' hbs hlast => ?_⟩
      · obtain ⟨hmem, hcounter⟩ := hwoken.before (by omega)
        exact ⟨hmem, by omega⟩
      · cases bs' with
        | nil =>
          obtain ⟨rfl, rfl⟩ := List.cons.inj hbs
          have hne := hgoes.resolve_right Bool.noConfusion
          simp only [List.count_nil, if_pos] at hcount
          omega
        | cons b' bs' =>
          exact hwoken.at_last bs' (List.cons.inj hbs).2 (by omega)

/-! ## The steps of the kernel -/

theorem sameWaits_modifyTask (hq : Rings k.links k.taskList) (x : TaskId) {f : Task → Task}
    (hf : ∀ t, (f t).rtc = t.rtc ∧ (f t).parent = t.parent) : SameWaits k (k.modifyTask x f) := by
  have htask : ∀ y, ((k.modifyTask x f).task y).rtc = (k.task y).rtc ∧
      ((k.modifyTask x f).task y).parent = (k.task y).parent := by
    intro y
    by_cases hy : y = x
    · subst hy
      rw [modifyTask_task, Function.update_self]
      exact hf _
    · rw [modifyTask_task, Function.update_of_ne hy]
      exact ⟨rfl, rfl⟩
  exact ⟨hq, rfl, fun y _ => by rw [(htask y).1], fun y _ => (htask y).2⟩

theorem sameWaits_push (hq : Rings k.links k.taskList) (fr : Frame) : SameWaits k (k.push fr) :=
  sameWaits_modifyTask (f := fun t => { t with kstack := fr :: t.kstack }) hq k.running
    fun _ => ⟨rfl, rfl⟩

/-- An interrupt of the RTC, as a step of the kernel. -/
theorem step_rtc_run {img : FsImage} {l : Label} (hq : Rings k.links k.taskList)
    (he : l.event = .rtc) (h : k.step img l = .ok k') : RtcRun k [false, true] k' := by
  unfold step at h
  rw [he] at h
  cases hstack : k.runningTask.kstack with
  | cons f fs =>
    rw [hstack] at h
    cases h
  | nil =>
    rw [hstack] at h
    have henter : SameWaits k k.enterInterrupt := sameWaits_push hq .signalCheck
    exact .cons (.elsewhere henter) (.cons (.interrupt l.noise h) (.nil k'))

/-- A read from the RTC, as a step of the kernel. -/
theorem step_read_run {img : FsImage} {l : Label} {fd nbytes : ℤ} {bufNull : Bool}
    (hq : Rings k.links k.taskList) (hr : k.running ∈ k.taskList .runQueue)
    (hp : k.runningTask.parent ≠ none) (he : l.event = .read fd bufNull nbytes)
    (hrtc : k.runningTask.fileArray.systemRead img fd bufNull nbytes = .rtc)
    (h : k.step img l = .ok k') : RtcRun k [false, false, false] k' := by
  unfold step at h
  rw [he] at h
  cases hstack : k.runningTask.kstack with
  | cons f fs =>
    rw [hstack] at h
    cases h
  | nil =>
    rw [hstack] at h
    simp only at h
    split at h
    · cases h
    · have hcheck : SameWaits k (k.push .signalCheck) := sameWaits_push hq .signalCheck
      have hdone : SameWaits (k.push .signalCheck) k.enterSystemCall :=
        sameWaits_push hcheck.rings .syscallDone
      have hself : k.enterSystemCall.runningTask = { k.runningTask with
          kstack := .syscallDone :: .signalCheck :: k.runningTask.kstack } := by
        simp [enterSystemCall, push, runningTask]
      have hread : k.enterSystemCall.systemRead img l.noise fd bufNull nbytes =
          k.enterSystemCall.systemRtcRead l.noise := by
        rw [systemRead, hself, hrtc]
      exact .cons (.elsewhere hcheck) (.cons (.elsewhere hdone)
        (.cons (.sleep l.noise hr (by rw [hself]; exact hp) (hread.symm.trans h)) (.nil k')))

/-! ## The result -/

/-- What the RTC does for the tasks that wait for it. -/
structure WakesExactly (k : Kernel) : Prop where
  pass : ∃ m, RtcPass k m ∧ ∀ noise, k.rtcInterruptHandler noise =
    if (k.taskList .rtcWaitList).filter k.expires = [] then .ok m
    else m.schedLaunchToCurrentHead noise
  sleeps : ∀ noise k', k.running ∈ k.taskList .runQueue → k.runningTask.parent ≠ none →
    k.runningTask.rtc.targetFreq ≠ -1 → k.systemRtcRead noise = .ok k' →
    k'.RtcWaiting ∧ k.running ∈ k'.taskList .rtcWaitList ∧
      rtcRefill k.runningTask.rtc.targetFreq = .ok (k'.task k.running).rtc.counter
  woken : ∀ x ∈ k.taskList .rtcWaitList, 1 ≤ (k.task x).rtc.counter → ∀ bs k', RtcRun k bs k' →
    WokenAt x (k.task x).rtc.counter bs k'

/-- **The wake-up by the RTC is exact.** -/
theorem rtc_wakes_exactly (hw : k.RtcWaiting) : k.WakesExactly where
  pass := rtcInterruptHandler_pass hw
  sleeps := fun _ _ hr hp hfreq h =>
    have hs := hw.sleep hr hp h
    ⟨hs.1, hs.2.2 hfreq⟩
  woken := fun x hx hc _ _ hr => hw.run hr x hx hc

/-- The disk of `programs`, with the RTC. -/
def clockDisk : FsImage :=
  { programs with
    dirNum := 3
    dirEntries := fun i =>
      if i = 2 then { fileName := [114, 116, 99], fileType := 0, inodeNum := 0 }
      else programs.dirEntries i }

/-- The shell starts `cat`, which opens the RTC and reads from it. -/
def catWaits : List Event :=
  firstTick ++ openShell ++
    [.execute catCommand, .openFile [114, 116, 99], .resume, .resume, .read 2 true 0]

theorem rtc_wakes_exactly_cat : ∃ k, run (fun k l => k.step clockDisk l) start
    (traceOf catWaits) = .ok k ∧ k.taskList .rtcWaitList = [3] ∧
      (k.task 3).rtc.counter = 32 ∧ k.WakesExactly := by
  have h : (run (fun k l => k.step clockDisk l) start (traceOf catWaits)).toOption.map
      (fun k => (k.taskList .rtcWaitList, (k.task 3).rtc.counter, (k.task 3).parent)) =
      some ([3], 32, some 2) := by decide +kernel
  obtain ⟨k, hk, hobs⟩ := toOption_map_eq_some.mp h
  rw [Prod.mk.injEq, Prod.mk.injEq] at hobs
  obtain ⟨-, st, place, hs, -⟩ := run_inOrder (by decide +kernel) hk
  refine ⟨k, hk, hobs.1, hobs.2.1, rtc_wakes_exactly ⟨hs.listsWellFormed.rings, ?_⟩⟩
  intro y hy
  rw [hobs.1, List.mem_singleton] at hy
  rw [hy, hobs.2.2]
  exact Option.some_ne_none 2

end Kernel

end AuroraOS
