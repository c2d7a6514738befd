/-
# The task lists

Every valid task is on exactly one of the four task lists, and the lists are rings through
their sentinels.  All operations splice a task with the same primitive, which reads the
neighbours of the new place before it takes the task out; so it must not put a task
next to itself.  The only operation that can is the wake-up by a key: it puts the
focus task at the head of the run queue, and does not ask whether it is there already.
-/
import AuroraOS.TaskPlaces

namespace AuroraOS

open Ring Machine

namespace Kernel

variable {k k' k₀ : Kernel} {img : FsImage} {noise : Noise} {l : Label} {x y : TaskId}
variable {st : TermId → List TaskId} {place place' : TaskId → Option Sentinel} {t : TermId}

/-! ## The statement -/

/-- The tasks that are met from a sentinel on. -/
def taskList (k : Kernel) (s : Sentinel) : List TaskId :=
  walk k.links (taskMaxCount + 1) (k.links.next (.head s))

/-- **The task lists are in order.** -/
structure ListsWellFormed (k : Kernel) : Prop where
  rings : Rings k.links k.taskList
  inverse : ∀ s n, n = .head s ∨ n ∈ (k.taskList s).map Node.item →
    k.links.prev (k.links.next n) = n ∧ k.links.next (k.links.prev n) = n
  once : ∀ x, (k.task x).valid = true → ∃ s, s ≠ .tempList ∧ (k.taskList s).count x = 1 ∧
    ∀ s', x ∈ k.taskList s' → s' = s
  gone : ∀ x, (k.task x).valid = false → ∀ s, x ∉ k.taskList s
  idle : ∃ z, (k.task z).valid = true ∧ (k.task z).flags.idleTask = true
  idleRuns : ∀ z, (k.task z).valid = true → (k.task z).flags.idleTask = true →
    z ∈ k.taskList .runQueue

/-- A key does not wake the task at the head of the run queue. -/
def KeepsRings (k : Kernel) (l : Label) : Prop :=
  ∀ f ∈ k.keyWakes l, k.links.next (.head .runQueue) ≠ .item f

instance (k : Kernel) (l : Label) : Decidable (KeepsRings k l) :=
  inferInstanceAs (Decidable (∀ f ∈ k.keyWakes l, _))

theorem mem_taskList (hp : Places k.links place) (x : TaskId) (s : Sentinel) :
    x ∈ k.taskList s ↔ place x = some s := by
  rw [← hp.mem_walk, Fintype.card_fin]
  rfl

theorem Shaped.listsWellFormed (h : k.Shaped st place) : k.ListsWellFormed := by
  have hrings : Rings k.links k.taskList := by
    have := h.listed.places.rings
    rwa [Fintype.card_fin] at this
  have hmem := fun x s => mem_taskList h.listed.places x s
  refine ⟨hrings, fun s n hn => hrings.next_prev hn, fun x hx => ?_, fun x hx s hs => ?_,
    h.stacked.idle, fun z hz hi => ?_⟩
  · obtain ⟨s, hs⟩ := Option.ne_none_iff_exists'.mp ((h.listed.valid x).mp hx)
    refine ⟨s, fun he => h.listed.temp x (he ▸ hs), ?_, fun s' hs' => ?_⟩
    · exact List.count_eq_one_of_mem (hrings.nodup s) ((hmem x s).mpr hs)
    · exact Option.some.inj (((hmem x s').mp hs').symm.trans hs)
  · have := (h.listed.valid x).mpr (by rw [(hmem x s).mp hs]; simp)
    rw [hx] at this
    cases this
  · exact (hmem z _).mpr (h.listed.kernel z hz (h.stacked.idleKernel z hz hi))

/-! ## The head of the run queue -/

/-- The node of a task that is on no list yet. -/
def SelfLinked (k : Kernel) (x : TaskId) : Prop :=
  k.links.next (.item x) = .item x ∧ k.links.prev (.item x) = .item x

/-- The task lists when `x` has been moved to the head of the run queue. -/
def insertedToHead (q : Sentinel → List TaskId) (x : TaskId) (s : Sentinel) : List TaskId :=
  if s = .runQueue then x :: (q .runQueue).erase x else (q s).erase x

/-- **`sched_insert_to_head_unsafe`** moves the task to the head of the run queue and leaves all
lists well formed, wherever the task comes from, if and only if it is not there already. -/
theorem schedInsertToHead_iff (k : Kernel) (q : Sentinel → List TaskId) (x : TaskId)
    (hq : Rings k.links q) (hx : (∃ s, x ∈ q s) ∨ k.SelfLinked x) :
    Rings (k.schedInsertToHead x).links (insertedToHead q x) ↔
      (q .runQueue).head? ≠ some x := by
  have hlinks : (k.schedInsertToHead x).links = k.links.move (.item x) (.head .runQueue)
      (k.links.next (.head .runQueue)) := rfl
  have hupdate : insertedToHead q x = Function.update (fun s => (q s).erase x) .runQueue
      (x :: (q .runQueue).erase x) := by
    funext s
    rw [Function.update_apply, insertedToHead]
  rw [hlinks]
  constructor
  · intro h hhead
    refine Rings.not_move_head (hq.next_head_eq_item.mpr hhead) (r := .runQueue) ?_ h
    rw [insertedToHead, if_pos rfl]
    exact List.mem_cons_self
  · intro hhead
    have hne : k.links.next (.head .runQueue) ≠ .item x := fun hn =>
      hhead (hq.next_head_eq_item.mp hn)
    rw [hupdate]
    by_cases hmem : ∃ s, x ∈ q s
    · obtain ⟨s, hs⟩ := hmem
      exact hq.move_head hs hne
    · -- a fresh node: nothing is taken out of the lists
      have hfresh : ∀ s, x ∉ q s := not_exists.mp hmem
      obtain ⟨hnext, hprev⟩ := hx.resolve_left hmem
      have herase : (fun s => (q s).erase x) = q := by
        funext s
        exact List.erase_of_not_mem (hfresh s)
      rw [List.erase_of_not_mem (hfresh _), herase]
      exact hq.move_fresh hfresh hnext hprev

/-- The run queue at start: the idle task, and the task that ran at boot. -/
def startLists (s : Sentinel) : List TaskId :=
  if s = .runQueue then [start.running, boot.running] else []

theorem start_rings : Rings start.links startLists := by
  refine ⟨fun s => ?_, fun s => ?_, fun s s' x hx hx' => ?_⟩
  · cases s
    · refine ⟨⟨?_, ?_⟩, ⟨?_, ?_⟩, ?_, ?_⟩ <;> decide +kernel
    all_goals constructor <;> decide +kernel
  · cases s <;> decide
  · cases s <;> cases s' <;> simp_all [startLists]

/-- At start the init task, at the end of the run queue, is moved to its head. -/
theorem schedInsertToHead_init :
    Rings (start.schedInsertToHead 0).links (insertedToHead startLists 0) ↔
      (startLists .runQueue).head? ≠ some 0 :=
  schedInsertToHead_iff start startLists 0 start_rings (Or.inl ⟨.runQueue, by decide⟩)

/-- **A task at the head of the run queue is lost there.** -/
theorem schedInsertToHead_head : ∃ (k : Kernel) (q : Sentinel → List TaskId) (x : TaskId),
    Rings k.links q ∧ (∃ s, x ∈ q s) ∧
      ¬ Rings (k.schedInsertToHead x).links (insertedToHead q x) := by
  refine ⟨start, startLists, 1, start_rings, ⟨.runQueue, by decide⟩, ?_⟩
  refine Rings.not_move_head (r := .runQueue) (start_rings.next_head_eq_item.mpr rfl) ?_
  decide
/-! ## What a step does to a task -/

/-- An interrupt of the RTC finds a task at the last interrupt that it waits for. -/
def rtcWakes (k : Kernel) (l : Label) : Bool :=
  match l.event with
  | .rtc => (k.taskList .rtcWaitList).any fun x => (k.task x).rtc.counter = 1
  | _ => false

/-- **What a step does to the place and the flags of a task.** -/
inductive Moved (k₀ : Kernel) (l : Label) (y : TaskId) :
    Option Sentinel → TaskFlags → Option Sentinel → TaskFlags → Prop where
  /-- It stays where it is. -/
  | stays {o : Option Sentinel} {f : TaskFlags} : Moved k₀ l y o f o f
  /-- It waits for a line. -/
  | reads {f : TaskFlags} (hr : y = k₀.running) : Moved k₀ l y (some .runQueue) f
      (some .terminalWaitList) { f with waitingTerminal := true }
  /-- It waits for the RTC. -/
  | waits {f : TaskFlags} (hr : y = k₀.running) : Moved k₀ l y (some .runQueue) f
      (some .rtcWaitList) { f with waitingRtc := true }
  /-- It waits for its child. -/
  | starts {f : TaskFlags} (hr : y = k₀.running) : Moved k₀ l y (some .runQueue) f
      (some .wait4childList) { f with waitingChild := true }
  /-- Its child has ended. -/
  | child {f : TaskFlags} : Moved k₀ l y (some .wait4childList) f (some .runQueue)
      { f with waitingChild := false }
  /-- A key wakes it. -/
  | key {s : Sentinel} {f : TaskFlags} (hk : k₀.keyWakes l = some y) (hs : s ≠ .wait4childList) :
      Moved k₀ l y (some s) f (some .runQueue) { f with waitingTerminal := false }
  /-- The RTC wakes tasks, and clears flags of their parents. -/
  | rtc {o o' : Option Sentinel} {f : TaskFlags} {b : Bool} (hl : k₀.rtcWakes l = true)
      (ho : o' = o ∨ o = some .rtcWaitList ∧ o' = some .runQueue) :
      Moved k₀ l y o f o' { f with waitingRtc := b }
  /-- It is new. -/
  | new {o : Option Sentinel} {f f' : TaskFlags} (hv : (k₀.task y).valid = false)
      (hc : f'.waitingChild = false) (hr : f'.waitingRtc = false)
      (ht : f'.waitingTerminal = false) : Moved k₀ l y o f (some .runQueue) f'

/-- **What a step does to the places and the flags of the tasks.**  If the RTC wakes nobody,
one task at most is not where it was. -/
structure AllMoved (k₀ : Kernel) (l : Label) (place : TaskId → Option Sentinel) (k' : Kernel)
    (place' : TaskId → Option Sentinel) : Prop where
  moved : ∀ y, (k'.task y).valid = true →
    Moved k₀ l y (place y) (k₀.task y).flags (place' y) (k'.task y).flags
  lone : k₀.rtcWakes l = false → ∃ z, ∀ y, y ≠ z → (k₀.task y).valid = true →
    (k'.task y).valid = true → (k'.task y).flags = (k₀.task y).flags ∧ place' y = place y

theorem Moved.of_flags {o : Option Sentinel} {f f' : TaskFlags} (hf : f' = f) :
    Moved k₀ l y o f o f' := by
  rw [hf]
  exact .stays

/-- Only the tasks themselves are looked at. -/
theorem AllMoved.congr {k₁ : Kernel} (h : AllMoved k₀ l place k₁ place')
    (ht : k'.task = k₁.task) : AllMoved k₀ l place k' place' := by
  refine ⟨fun y hy => ?_, fun hw => ?_⟩
  · rw [ht] at hy ⊢
    exact h.moved y hy
  · rw [ht]
    exact h.lone hw

theorem allMoved_of_flags (h : ∀ y, (k'.task y).valid = true →
    (k'.task y).flags = (k₀.task y).flags) : AllMoved k₀ l place k' place :=
  ⟨fun y hy => .of_flags (h y hy), fun _ => ⟨k₀.running, fun y _ _ hy => ⟨h y hy, rfl⟩⟩⟩

theorem Calm.allMoved (h : Calm k₀ k') : AllMoved k₀ l place k' place :=
  allMoved_of_flags fun y _ => (h.core y).flags

/-- The running task has gone to sleep on a list. -/
theorem asleep_allMoved {k₁ : Kernel} (hq : Calm k₀ k₁) {s : Sentinel} {f : Task → Task}
    (hr : Moved k₀ l k₀.running (place k₀.running) (k₀.task k₀.running).flags (some s)
      (f (k₁.task k₀.running)).flags) :
    AllMoved k₀ l place (k₁.asleep s f) (Function.update place k₁.running (some s)) := by
  have hother : ∀ y, y ≠ k₀.running → ((k₁.asleep s f).task y).flags = (k₀.task y).flags ∧
      Function.update place k₁.running (some s) y = place y := by
    intro y hy
    rw [← hq.running] at hy
    rw [Function.update_of_ne hy]
    refine ⟨.trans ?_ (hq.core y).flags, rfl⟩
    show (Function.update k₁.task k₁.running _ y).flags = _
    rw [Function.update_of_ne hy]
  refine ⟨fun y _ => ?_, fun _ => ⟨k₀.running, fun y hy _ _ => hother y hy⟩⟩
  by_cases hy : y = k₀.running
  · subst hy
    show Moved k₀ l k₀.running _ _ _ (Function.update k₁.task k₁.running (f (k₁.task k₁.running))
      k₀.running).flags
    rw [hq.running, Function.update_self, Function.update_self]
    exact hr
  · rw [(hother y hy).2]
    exact .of_flags (hother y hy).1

/-! ## The loop of the RTC -/

/-- The loop only clears flags of the RTC. -/
theorem rtcLoop_flags {n : ℕ} {m' : Kernel} {w w' : ℕ} {node : ListNode}
    (h : rtcLoop n k w node = .ok (m', w')) (y : TaskId) :
    ∃ b, (m'.task y).flags = { (k.task y).flags with waitingRtc := b } := by
  refine rtcLoop_induction (P := fun m => ∃ b, (m.task y).flags =
    { (k.task y).flags with waitingRtc := b }) (fun m w x m' w' hm hx => ?_) ⟨_, rfl⟩ h
  obtain ⟨b, hb⟩ := hm
  have htick : ((m.modifyTask x tickedTask).task y).flags = (m.task y).flags := by
    by_cases hy : y = x
    · simp [hy, tickedTask]
    · simp [hy]
  rcases rtcTick_cases hx with ⟨-, -, rfl⟩ | ⟨-, -, p, -, rfl⟩
  · exact ⟨b, htick.trans hb⟩
  · have hrefill : ∀ (m : Kernel), ((m.schedRefillTime x).task y).flags = (m.task y).flags :=
      fun m => ((m.quiet_schedRefillTime x).core y).flags
    show ∃ b, ((((m.modifyTask x tickedTask).modifyTask p rtcCleared).schedRefillTime x).task
      y).flags = _
    rw [hrefill]
    by_cases hp : y = p
    · refine ⟨false, ?_⟩
      rw [hp, modifyTask_task, Function.update_self, ← hp]
      show { ((m.modifyTask x tickedTask).task y).flags with waitingRtc := false } = _
      rw [htick, hb]
    · refine ⟨b, ?_⟩
      rw [modifyTask_task, Function.update_of_ne hp, htick, hb]

/-- **When no task is at its last interrupt, the loop only counts.** -/
theorem rtcLoop_counts {ys : List TaskId} : ∀ {n w : ℕ} {m : Kernel} {pre : List TaskId}
    {q : Sentinel → List TaskId}, Rings m.links q → q .rtcWaitList = pre ++ ys →
    (∀ y ∈ ys, (m.task y).rtc.counter ≠ 1) → ys.length ≤ n →
    ∃ m', rtcLoop n m w (rtcNode ys) = .ok (m', w) ∧ m'.links = m.links ∧
      ∀ y, (m'.task y).flags = (m.task y).flags := by
  induction ys with
  | nil =>
    intro n w m pre q _ _ _ _
    refine ⟨m, ?_, rfl, fun _ => rfl⟩
    unfold rtcLoop
    rw [if_pos (by rw [rtcNode]; rfl)]
  | cons x ys ih =>
    intro n w m pre q hq hys hc hn
    cases n with
    | zero => exact absurd hn (Nat.not_succ_le_zero _)
    | succ n =>
      have hnd := hq.nodup .rtcWaitList
      rw [hys] at hnd
      have hx : x ∉ ys := (List.nodup_cons.mp (List.nodup_append.mp hnd).2.1).1
      have hcount : ((m.modifyTask x tickedTask).task x).rtc.counter ≠ 0 := by
        have := hc x List.mem_cons_self
        simp only [modifyTask_task, Function.update_self, tickedTask]
        omega
      have htick : m.rtcTick w x = .ok (m.modifyTask x tickedTask, w) := if_neg hcount
      have hys' : q .rtcWaitList = (pre ++ [x]) ++ ys := by rw [hys]; simp
      have hrest : ∀ y ∈ ys, ((m.modifyTask x tickedTask).task y).rtc.counter ≠ 1 := by
        intro y hy
        have hyx : y ≠ x := fun he => hx (he ▸ hy)
        rw [modifyTask_task, Function.update_of_ne hyx]
        exact hc y (List.mem_cons_of_mem x hy)
      obtain ⟨m', hm', hlinks, hflags⟩ := ih (n := n) (w := w) (m := m.modifyTask x tickedTask) hq
        hys' hrest (Nat.le_of_succ_le_succ hn)
      refine ⟨m', ?_, hlinks, fun y => ?_⟩
      · have hnext : m.links.next (rtcNode (x :: ys)) = rtcNode ys := rtcNode_next hq hys
        rw [rtcLoop, if_neg (by rw [rtcNode]; simp)]
        simp only [hnext]
        show (m.rtcTick w x >>= fun r => rtcLoop n r.1 r.2 (rtcNode ys)) = _
        rw [htick]
        exact hm'
      · rw [hflags]
        by_cases hy : y = x
        · simp [hy, tickedTask]
        · simp [hy]

/-- The counters are left alone on the way into a step. -/
theorem entered_rtc (k : Kernel) (l : Label) (y : TaskId) :
    ((k.entered l).task y).rtc = (k.task y).rtc := by
  have hpush : ∀ (m : Kernel) (f : Frame), ((m.push f).task y).rtc = (m.task y).rtc := by
    intro m f
    by_cases hy : y = m.running
    · simp [push, hy]
    · simp [push, hy]
  have hpop : (k.pop.task y).rtc = (k.task y).rtc := by
    by_cases hy : y = k.running
    · simp [pop, hy]
    · simp [pop, hy]
  unfold entered enterInterrupt enterSystemCall
  split <;> simp only [hpush, hpop]

/-- The loop of the RTC, when it wakes no task. -/
theorem rtcLoop_idle (hs : k.ListsWellFormed) (he : l.event = .rtc)
    (hw : k.rtcWakes l = false) : ∃ m', rtcLoop taskMaxCount (k.entered l) 0
      ((k.entered l).links.next (.head .rtcWaitList)) = .ok (m', 0) ∧
      m'.links = k.links ∧ ∀ y, (m'.task y).flags = (k.task y).flags := by
  have hlinks : (k.entered l).links = k.links := (k.quiet_entered l).links
  have hcounters : ∀ y ∈ k.taskList .rtcWaitList, ((k.entered l).task y).rtc.counter ≠ 1 := by
    intro y hy hone
    rw [entered_rtc] at hone
    rw [rtcWakes, he] at hw
    have := List.any_eq_false.mp hw y hy
    simp [hone] at this
  have hlen : (k.taskList .rtcWaitList).length ≤ taskMaxCount := by
    have := (hs.rings.nodup .rtcWaitList).length_le_card
    rwa [Fintype.card_fin] at this
  have hnode : k.links.next (.head .rtcWaitList) = rtcNode (k.taskList .rtcWaitList) :=
    hs.rings.next_head _
  obtain ⟨m', hm', hl, hf⟩ := rtcLoop_counts (w := 0) (m := k.entered l)
    (hlinks.symm ▸ hs.rings) (List.nil_append _).symm hcounters hlen
  refine ⟨m', ?_, hl.trans hlinks, fun y => (hf y).trans ((k.quiet_entered l).core y).flags⟩
  rw [hlinks, hnode]
  exact hm'

/-! ## Tasks that start and end -/

theorem Launched.allMoved {k₁ : Kernel} {a : ExecuteArgs} (hq : Calm k₀ k₁)
    (h : Launched k₁ a x k') (hv : (k₁.task k₁.running).valid = true)
    (hr : place k₀.running = some .runQueue) :
    AllMoved k₀ l place k' (launchPlace place a x k₁.running) := by
  have hne : k₁.running ≠ x := h.fresh_ne_running hv
  have hplace : ∀ z, z ≠ k₁.running → launchPlace place a x k₁.running z =
      Function.update place x (some .runQueue) z := by
    intro z hz
    unfold launchPlace
    split
    · rw [Function.update_of_ne hz]
    · rfl
  have hother : ∀ y, y ≠ x → y ≠ k₀.running → (k'.task y).flags = (k₀.task y).flags ∧
      launchPlace place a x k₁.running y = place y := by
    intro y hx hy
    rw [← hq.running] at hy
    rw [hplace y hy, Function.update_of_ne hx, h.other y hx hy]
    exact ⟨(hq.core y).flags, rfl⟩
  have hfresh : (k₀.task x).valid = false := (hq.core x).valid.symm.trans h.fresh
  refine ⟨fun y _ => ?_, fun _ => ⟨k₀.running, fun y hy hyv _ => hother y ?_ hy⟩⟩
  · by_cases hx : y = x
    · subst hx
      rw [hplace y hne.symm, Function.update_self, h.flags]
      exact .new hfresh rfl rfl rfl
    · by_cases hy : y = k₀.running
      · have hyr : y = k₁.running := hy.trans hq.running.symm
        have hflags : (k'.task y).flags = { (k₀.task y).flags with
            waitingChild := (k₀.task y).flags.waitingChild || decide (a.wait = 1) } := by
          rw [← (hq.core y).flags, hyr, h.caller]
          rfl
        rw [hflags, hq.running, hy, hr]
        by_cases hw : a.wait = 1
        · have hself : launchPlace place a x k₀.running k₀.running = some .wait4childList := by
            rw [launchPlace, if_pos hw, Function.update_self]
          rw [hself, decide_eq_true hw, Bool.or_true]
          exact .starts rfl
        · have hself : launchPlace place a x k₀.running k₀.running = some .runQueue := by
            rw [launchPlace, if_neg hw, Function.update_of_ne (hy ▸ hx), hr]
          rw [hself, decide_eq_false hw, Bool.or_false]
          exact .stays
      · rw [(hother y hx hy).2]
        exact .of_flags (hother y hx hy).1
  · rintro rfl
    rw [hfresh] at hyv
    cases hyv

theorem TornDown.allMoved {k₁ : Kernel} (hq : Calm k₀ k₁) (h : TornDown x k₁ k')
    (hpar : ∀ p, (k₁.task x).parent = some p → p ≠ x ∧ place p = some .wait4childList) :
    AllMoved k₀ l place k' (tornPlace place x (k₁.task x).parent) := by
  have hother : ∀ y, y ≠ x → (k₁.task x).parent ≠ some y → (k'.task y).flags = (k₀.task y).flags ∧
      tornPlace place x (k₁.task x).parent y = place y := by
    intro y hyx hyp
    rw [h.other y hyx hyp]
    exact ⟨(hq.core y).flags, tornPlace_other hyx hyp⟩
  refine ⟨fun y hy => ?_, fun _ => ⟨((k₁.task x).parent).getD x, fun y hne _ hy =>
    hother y ((h.valid_iff y).mp hy).2 fun hyp => hne (by rw [hyp]; rfl)⟩⟩
  have hyx : y ≠ x := ((h.valid_iff y).mp hy).2
  by_cases hyp : (k₁.task x).parent = some y
  · rw [h.parent y hyx hyp, (hpar y hyp).2, hyp]
    have hself : tornPlace place x (some y) y = some .runQueue := Function.update_self _ _ _
    rw [hself]
    show Moved k₀ l y _ _ _ { (k₁.task y).flags with waitingChild := false }
    rw [(hq.core y).flags]
    exact .child
  · rw [(hother y hyx hyp).2]
    exact .of_flags (hother y hyx hyp).1

theorem Halted.allMoved {k₁ : Kernel} {status : BitVec 32} (hq : Calm k₀ k₁)
    (h : Halted noise status k₁ k') (hs : k₁.Shaped st place)
    (hx : (st t).head? = some k₁.running) : ∃ place', k'.Shaped (popped st t) place' ∧
      place' k'.running = some .runQueue ∧ AllMoved k₀ l place k' place' := by
  cases h with
  | toParent p k₂ hp ht h =>
    have hmoved : AllMoved k₀ l place k₂ _ := ht.allMoved hq fun p hp => hs.parent_waits hx hp
    refine ⟨_, h.shaped (ht.shaped hs hx), ?_, hmoved.congr h.task⟩
    rw [h.running, hp]
    exact Function.update_self _ _ _
  | alone k₂ hp ht h hne =>
    have hmoved : AllMoved k₀ l place k₂ _ := ht.allMoved hq fun p hp => hs.parent_waits hx hp
    obtain ⟨hs', hr'⟩ := h.shaped (ht.shaped hs hx)
    exact ⟨_, hs', hr', hmoved.congr h.task⟩

/-! ## A step -/

/-- **Every step that meets the condition keeps the stacks and the lists**, and moves the
tasks between the lists as `Moved` says. -/
theorem Outcome.placed (h : Outcome img k₀ l (k₀.entered l) k') (hk₀ : k₀.Sound)
    (hs₀ : k₀.Shaped st place) (hr₀ : place k₀.running = some .runQueue) (hc : KeepsRings k₀ l) :
    ∃ st' place', k'.Shaped st' place' ∧ place' k'.running = some .runQueue ∧
      AllMoved k₀ l place k' place' := by
  have hent := (k₀.quiet_entered l).toCalm
  have hk := hent.sound hk₀
  have hs := hent.shaped hs₀
  have hr : place (k₀.entered l).running = some .runQueue := by rw [hent.running, hr₀]
  have calm : ∀ {k₁}, Calm (k₀.entered l) k₁ → ∃ st' place', k₁.Shaped st' place' ∧
      place' k₁.running = some .runQueue ∧ AllMoved k₀ l place k₁ place' := fun h =>
    ⟨st, place, h.shaped hs, by rw [h.running, hr], (hent.trans h).allMoved⟩
  have scheduled : ∀ {k₁ place₁}, k₁.Shaped st place₁ → AllMoved k₀ l place k₁ place₁ →
      Scheduled l.noise k₁ k' → ∃ st' place', k'.Shaped st' place' ∧
        place' k'.running = some .runQueue ∧ AllMoved k₀ l place k' place' := by
    intro k₁ place₁ hs₁ hm h
    obtain ⟨hs', hr'⟩ := h.shaped hs₁
    exact ⟨st, place₁, hs', hr', hm.congr h.task⟩
  cases h with
  | quiet h => exact calm h.toCalm
  | vidmap t ht h =>
    rw [h]
    refine ⟨st, place, (quiet_ret _ _).toCalm.shaped (hs.vidmapped t), hr,
      allMoved_of_flags fun y _ => .trans ?_ (hent.core y).flags⟩
    show (((k₀.entered l).modifyTask (k₀.entered l).running fun t =>
      { t with vidmapEnabled := true }).task y).flags = _
    by_cases hy : y = (k₀.entered l).running
    · simp [hy]
    · simp [hy]
  | lineRead h => exact calm h.toCalm
  | readWaits nbytes term hb he hu h =>
    have hshape := readBegin_shape ((k₀.entered l).term (k₀.entered l).runningTask.terminal) nbytes
    rw [hb] at hshape
    have hcalm := (k₀.entered l).calm_modifyTerm (k₀.entered l).runningTask.terminal hshape
    have hf := readerTask_held nbytes
    have hreads : Moved k₀ l k₀.running (place k₀.running) (k₀.task k₀.running).flags
        (some .terminalWaitList) (readerTask nbytes
          ((k₀.entered l).task k₀.running)).flags := by
      rw [hr₀, ← (hent.core k₀.running).flags]
      exact .reads rfl
    have hmoved := asleep_allMoved (hent.trans hcalm) hreads
    exact scheduled ((hcalm.shaped hs).asleep hr hu (by decide) (by decide) (by decide) hf) hmoved h
  | rtcWaits counter hu h =>
    have hf := rtcTask_held counter
    have hwaits : Moved k₀ l k₀.running (place k₀.running) (k₀.task k₀.running).flags
        (some .rtcWaitList) (rtcTask counter ((k₀.entered l).task k₀.running)).flags := by
      rw [hr₀, ← (hent.core k₀.running).flags]
      exact .waits rfl
    have hmoved := asleep_allMoved hent hwaits
    exact scheduled (hs.asleep hr hu (by decide) (by decide) (by decide) hf) hmoved h
  | yields k₁ hq h =>
    have hs₁ := hq.toCalm.shaped hs
    have hr₁ : place k₁.running = some .runQueue := by rw [hq.running, hr]
    refine scheduled (k₁.kept_schedMoveRunningToLast.shaped hs₁
      (schedMoveRunningToLast_places hs₁.listed.places hr₁))
      ((hent.trans hq.toCalm).allMoved.congr k₁.schedMoveRunningToLast_task) h
  | rtc k₁ wakeCount hl he h =>
    obtain ⟨place', hp', hm⟩ := rtcLoop_moves hs.listed.places hl
    have hs' := (rtcLoop_kept hl).shaped_moved hs hp' (hm.moves _)
    have hmoved : ∃ place₁, k₁.Shaped st place₁ ∧
        place₁ (k₀.entered l).running = some .runQueue ∧ AllMoved k₀ l place k₁ place₁ := by
      cases hw : k₀.rtcWakes l with
      | true =>
        refine ⟨place', hs', ?_, fun y _ => ?_, fun hn => ?_⟩
        · rcases hm (k₀.entered l).running with he' | ⟨hrtc, -⟩
          · rw [he', hr]
          · rw [hr] at hrtc
            cases hrtc
        · obtain ⟨b, hb⟩ := rtcLoop_flags hl y
          rw [hb, (hent.core y).flags]
          exact .rtc hw (hm y)
        · rw [hw] at hn
          cases hn
      | false =>
        obtain ⟨m', hm', hlinks, hflags⟩ := rtcLoop_idle hs₀.listsWellFormed he hw
        obtain ⟨rfl, rfl⟩ := Prod.mk.inj (Except.ok.inj (hm'.symm.trans hl))
        refine ⟨place, (rtcLoop_kept hl).shaped hs ?_, hr, allMoved_of_flags fun y _ => hflags y⟩
        rw [hlinks]
        exact hs₀.listed.places
    obtain ⟨place₁, hs₁, hr₁, hm₁⟩ := hmoved
    rcases h with ⟨-, rfl⟩ | ⟨-, h⟩
    · refine ⟨st, place₁, hs₁, ?_, hm₁⟩
      rw [(rtcLoop_kept hl).running, hr₁]
    · exact scheduled hs₁ hm₁ h
  | key k₁ f kb kb' code term effect hf hp he h hw =>
    have hfocus := kept_keyFocus hf effect
    have hs₁ := h.calm.shaped (hfocus.shaped hs hs.listed.places)
    have hflags : ∀ y, (k₁.task y).flags = (k₀.task y).flags :=
      fun y => (h.calm.core y).flags.trans (hent.core y).flags
    rcases hw with ⟨-, rfl⟩ | ⟨-, hwakes, hsched⟩
    · exact ⟨st, place, hs₁, by rw [h.calm.running]; exact hr,
        allMoved_of_flags fun y _ => hflags y⟩
    · obtain ⟨t, ht⟩ := hs₁.stacked.focus _ h.calm.focusTask
      set x := (k₀.entered l).keyTarget f effect with hx
      have hne : k₁.links.next (.head .runQueue) ≠ .item x := by
        rw [h.calm.links]
        show (k₀.entered l).links.next _ ≠ _
        rw [hent.links]
        exact hc _ hwakes
      have hother : ∀ y, y ≠ x → ((k₁.keyWoken x).task y).flags = (k₀.task y).flags ∧
          Function.update place x (some .runQueue) y = place y := by
        intro y hy
        rw [Function.update_of_ne hy]
        refine ⟨.trans ?_ (hflags y), rfl⟩
        show (Function.update k₁.task x _ y).flags = _
        rw [Function.update_of_ne hy]
      refine scheduled (hs₁.keyWoken ht hne) ⟨fun y _ => ?_, fun _ =>
        ⟨x, fun y hy _ _ => hother y hy⟩⟩ hsched
      by_cases hy : y = x
      · obtain ⟨s, hxs⟩ := hs₁.place_of_valid (hs₁.stacked.head ht).1
        show Moved k₀ l y _ _ _ (Function.update k₁.task x _ y).flags
        rw [hy, Function.update_self, Function.update_self, hxs]
        show Moved k₀ l x _ _ _ { (k₁.task x).flags with waitingTerminal := false }
        rw [hflags]
        exact .key hwakes fun hs => hs₁.not_waiting ht (by rw [hxs, hs])
      · rw [(hother y hy).2]
        exact .of_flags (hother y hy).1
  | raised g f hg hf h =>
    have hs₁ := ((k₀.entered l).kept_raised (focus_of_raised hf) hg).shaped hs hs.listed.places
    exact ⟨st, place, h.toCalm.shaped hs₁, by rw [h.running]; exact hr,
      allMoved_of_flags fun y _ => (h.core y).flags.trans (hent.core y).flags⟩
  | refused k₁ k₂ hq h hq' =>
    have hs₁ := hq.toCalm.shaped hs
    have hs₂ := h.kept.shaped hs₁ (h.places hs₁)
    refine ⟨st, place, hq'.toCalm.shaped hs₂, ?_, allMoved_of_flags fun y hy => ?_⟩
    · rw [hq'.running, h.running, hq.running, hr]
    · have hv : (k₁.task y).valid = true := by
        rw [(hq'.core y).valid] at hy
        by_contra hf
        rw [h.free y (by simpa using hf)] at hy
        cases hy
      refine (hq'.core y).flags.trans ?_
      rw [h.task y hv]
      exact (hq.core y).flags.trans (hent.core y).flags
  | launched k₁ a x ha hq _ hl h =>
    have hk₁ := hq.toCalm.sound hk
    have ha₁ : k₁.UserCall a :=
      ((hent.kept.trans hq.kept).userCall hk₀.running).mpr (userCall_of_executes ha)
    have hr₁ : place k₁.running = some .runQueue := by rw [hq.running, hr]
    obtain ⟨hs', hr'⟩ := h.shaped (hq.toCalm.shaped hs) hk₁ ha₁ hr₁
    exact ⟨_, _, hs', hr', h.allMoved (hent.trans hq.toCalm) hk₁.running hr₀⟩
  | halted k₁ cause hcause hq h =>
    obtain ⟨t, ht⟩ := hs₀.halting_top hk₀ hr₀ hcause
    have hrun : k₁.running = k₀.running := by rw [hq.running, hent.running]
    obtain ⟨place', hs', hr', hm⟩ := h.allMoved (l := l) (hent.trans hq.toCalm)
      (hq.toCalm.shaped hs) (by rw [hrun]; exact ht)
    exact ⟨_, place', hs', hr', hm⟩
  | closed k₁ x hclose hq h =>
    obtain ⟨t, ht⟩ := closes_fg hclose
    rw [hs₀.stacked.fg] at ht
    have hs₁ := hq.toCalm.shaped hs
    have hrun : k₁.running = k₀.running := by rw [hq.running, hent.running]
    have hne : k₁.running ≠ x := by
      rw [hrun]
      exact (closes_ne_running hclose).symm
    have hr₁ : place k₁.running = some .runQueue := by rw [hrun, hr₀]
    refine ⟨_, _, h.shaped hs₁ ht, ?_,
      h.allMoved (hent.trans hq.toCalm) fun p hp => hs₁.parent_waits ht hp⟩
    rw [h.running]
    exact tornPlace_running hr₁ hne _

/-! ## Runs -/

/-- The stacks and the places, with the running task on the run queue. -/
def InOrder (k : Kernel) : Prop :=
  ∃ st place, k.Shaped st place ∧ place k.running = some .runQueue

/-- **Every step that meets the condition keeps the lists in order.** -/
theorem Outcome.inOrder (h : Outcome img k₀ l (k₀.entered l) k') (hk₀ : k₀.Sound)
    (hs₀ : k₀.InOrder) (hc : KeepsRings k₀ l) : k'.InOrder := by
  obtain ⟨st, place, hs₀, hr₀⟩ := hs₀
  obtain ⟨st', place', hs', hr', -⟩ := h.placed hk₀ hs₀ hr₀ hc
  exact ⟨st', place', hs', hr'⟩

/-- The kernel at start: the idle task and the init task are on the run queue. -/
theorem start_inOrder : start.InOrder := by
  have hrings : Rings start.links (fun s => if s = .runQueue then [1, 0] else []) := start_rings
  have hmem : ∀ (x : TaskId) (s : Sentinel),
    (x ∈ (if s = .runQueue then [1, 0] else [] : List TaskId))
      ↔ (if x = 0 ∨ x = 1 then some Sentinel.runQueue else none) = some s := by
    intro x s
    by_cases hs : s = .runQueue
    · subst hs
      revert x
      decide
    · rw [if_neg hs]
      have hs' : Sentinel.runQueue ≠ s := fun he => hs he.symm
      by_cases hx : x = 0 ∨ x = 1
      · rw [if_pos hx]
        simp [hs']
      · rw [if_neg hx]
        simp
  refine ⟨fun _ => [], _,
    ⟨⟨?_, fun _ => List.nodup_nil, fun _ => trivial, ?_, ?_, ?_, ?_, ?_, ?_, ?_⟩,
    ⟨_, hrings, hmem⟩, ?_, ?_, ?_, ?_⟩, ?_⟩
  · have h : ∀ t x, ¬ ((start.task x).valid = true ∧ (start.task x).terminal = some t) := by
      decide +kernel
    exact fun t x => iff_of_false List.not_mem_nil (h t x)
  · decide +kernel
  · have h : start.focusTask = none := by decide +kernel
    intro f hf
    rw [h] at hf
    cases hf
  · have h : ∀ t, (start.term (some t)).valid = false := by decide +kernel
    intro t
    simp [h t]
  · decide +kernel
  · decide +kernel
  · decide +kernel
  · decide +kernel
  · decide +kernel
  · intro x
    by_cases hx : x = 0 ∨ x = 1
    · rw [if_pos hx]
      decide
    · rw [if_neg hx]
      decide
  · decide +kernel
  · intro x
    by_cases hx : x = 0 ∨ x = 1
    · rw [if_pos hx]
      simp
    · rw [if_neg hx]
      simp
  · decide +kernel

theorem run_inOrder {labels : List Label}
    (hm : Meets (fun k l => k.step img l) KeepsRings start labels)
    (h : run (fun k l => k.step img l) start labels = .ok k) : k.Sound ∧ k.InOrder :=
  run_invariant (I := fun k => k.Sound ∧ k.InOrder)
    (fun _ _ _ hi hc ht => ⟨step_sound hi.1 ht, (step_outcome hi.1 ht).inOrder hi.1 hi.2 hc⟩)
    ⟨start_sound, start_inOrder⟩ hm h

/-- The shell starts `cat`, which reads, and Enter wakes it. -/
def catReads : List Event :=
  firstTick ++ openShell ++ [.execute catCommand, .read 0 false 128, .resume, .resume, .resume,
    .keyboard 0x1C, .resume]

/-- `cat` reads, its window is closed, and Enter is pressed: the shell, at the head of the run
queue, is woken for the read of `cat`. -/
def closeAndEnter : List Event :=
  firstTick ++ openShell ++
    [.execute catCommand, .read 0 false 128, .resume, .resume, .resume] ++
    mousePacket 0x38 0 0xEC ++ mousePacket 0x18 0 0 ++ mousePacket 0x18 0 0 ++
    mousePacket 0x18 0x92 0 ++ mousePacket 0x09 0 0 ++ mousePacket 0x08 0 0 ++ [.keyboard 0x1C]

end Kernel

end AuroraOS
