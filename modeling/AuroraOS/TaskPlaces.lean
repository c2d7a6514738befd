/-
# The places of the tasks

The invariant behind the task lists: every valid task has a place, the tasks behind the
tops of the stacks are those that wait for a child, and the lists are the rings of the
places.  Here stands what the parts of a step do to the places.
-/
import AuroraOS.Stacks

namespace AuroraOS

open Ring Machine

namespace Kernel

variable {k k' k₀ : Kernel} {img : FsImage} {noise : Noise} {l : Label} {x y : TaskId}
variable {st : TermId → List TaskId} {place place' : TaskId → Option Sentinel} {t : TermId}

/-! ## The invariant -/

/-- The tasks are where `place` says: kernel tasks on the run queue, and the tasks behind
the top of a stack with those that wait for a child. -/
structure Listed (k : Kernel) (st : TermId → List TaskId) (place : TaskId → Option Sentinel) :
    Prop where
  places : Places k.links place
  valid : ∀ x, (k.task x).valid = true ↔ place x ≠ none
  temp : ∀ x, place x ≠ some .tempList
  kernel : ∀ x, (k.task x).valid = true → (k.task x).flags.kernelTask = true →
    place x = some .runQueue
  waiting : ∀ x, place x = some .wait4childList ↔ ∃ t, x ∈ (st t).tail

/-- **The stacks and the places of the tasks.** -/
structure Shaped (k : Kernel) (st : TermId → List TaskId) (place : TaskId → Option Sentinel) :
    Prop where
  stacked : k.Stacked st
  listed : k.Listed st place

/-- A task of a terminal that waits for no child is on top. -/
theorem Shaped.top (h : k.Shaped st place) (hx : x ∈ st t)
    (hw : place x ≠ some .wait4childList) : (st t).head? = some x := by
  have hnot : x ∉ (st t).tail := fun hm => hw ((h.listed.waiting x).mpr ⟨t, hm⟩)
  cases hst : st t with
  | nil =>
    rw [hst] at hx
    cases hx
  | cons y ys =>
    rw [hst] at hx hnot
    rcases List.mem_cons.mp hx with rfl | hm
    · rfl
    · exact absurd hm hnot

/-- A task on top of a stack waits for no child. -/
theorem Shaped.not_waiting (h : k.Shaped st place) (hx : (st t).head? = some x) :
    place x ≠ some .wait4childList := by
  intro hw
  obtain ⟨u, hu⟩ := (h.listed.waiting x).mp hw
  exact h.stacked.head_not_tail hx u hu

theorem Shaped.running_top (h : k.Shaped st place) (hrun : place k.running = some .runQueue)
    (hr : k.running ∈ st t) : (st t).head? = some k.running :=
  h.top hr (by rw [hrun]; decide)

theorem Shaped.place_of_valid (h : k.Shaped st place) (hx : (k.task x).valid = true) :
    ∃ s, place x = some s :=
  Option.ne_none_iff_exists'.mp ((h.listed.valid x).mp hx)
/-! ## What the operations do to the places -/

theorem schedMoveRunningToLast_places (hp : Places k.links place)
    (hr : place k.running = some .runQueue) : Places k.schedMoveRunningToLast.links place := by
  unfold schedMoveRunningToLast
  split
  · next hne =>
    have hmove := hp.move_last hr hne
    rw [← hr, Function.update_eq_self] at hmove
    show Places (k.links.move (.item k.running) (k.links.prev (.head .runQueue))
      (k.links.next (k.links.prev (.head .runQueue)))) place
    rw [hp.next_prev_head]
    exact hmove
  · exact hp

/-- The scheduler chooses a task of the run queue, if there is one. -/
theorem Scheduled.places (h : Scheduled noise k k') (hp : Places k.links place)
    (hidle : ∃ z, place z = some .runQueue) :
    Places k'.links place ∧ place k'.running = some .runQueue := by
  have hlinks : Places k'.links place := by
    rcases h.links with he | ⟨z, -, hz, hnot, he⟩
    · rw [he]
      exact hp
    · have hzp := hp.next_head_item hz
      have hne : k.links.prev (.head .runQueue) ≠ .item z := by
        intro hprev
        apply hnot
        rw [← hprev, hp.next_prev_head]
      have hmove := hp.move_last hzp hne
      rw [← hzp, Function.update_eq_self] at hmove
      rw [he, hp.next_prev_head]
      exact hmove
  refine ⟨hlinks, ?_⟩
  rcases h.head with ⟨hempty, -⟩ | hhead
  · obtain ⟨z, hz⟩ := hidle
    exact absurd hz (hp.next_head_head hempty z)
  · exact hlinks.next_head_item hhead

theorem asleep_places (hp : Places k.links place) (hr : place k.running = some .runQueue)
    {s : Sentinel} (hs : s ≠ .runQueue) (f : Task → Task) :
    Places (k.asleep s f).links (Function.update place k.running (some s)) := by
  refine hp.move_head hr fun hn => ?_
  have := hp.next_head_item hn
  rw [hr] at this
  exact hs (Option.some.inj this).symm

theorem keyWoken_places (hp : Places k.links place) {s : Sentinel} (hx : place x = some s)
    (hne : k.links.next (.head .runQueue) ≠ .item x) :
    Places (k.keyWoken x).links (Function.update place x (some .runQueue)) :=
  hp.move_head hx hne

/-- The places when the task `y` has started `x`. -/
def launchPlace (place : TaskId → Option Sentinel) (a : ExecuteArgs) (x y : TaskId) :
    TaskId → Option Sentinel :=
  if a.wait = 1 then
    Function.update (Function.update place x (some .runQueue)) y (some .wait4childList)
  else Function.update place x (some .runQueue)

theorem launchLinks_places {links : Links ListNode} (hp : Places links place) (a : ExecuteArgs)
    (hx : place x = none) (hy : place y = some .runQueue) :
    Places (launchLinks (links.reset (.item x)) a x y) (launchPlace place a x y) := by
  have hne : y ≠ x := by
    rintro rfl
    rw [hx] at hy
    cases hy
  have hinsert := hp.insert (s := .runQueue) hx
  unfold launchLinks launchPlace
  simp only
  split
  · have hy' : Function.update place x (some Sentinel.runQueue) y = some .runQueue := by
      rw [Function.update_of_ne hne, hy]
    refine hinsert.move_head hy' fun hn => ?_
    have := hinsert.next_head_item hn
    rw [hy'] at this
    cases this
  · exact hinsert

/-- The places when the task `x` with the parent `o` has ended. -/
def tornPlace (place : TaskId → Option Sentinel) (x : TaskId) (o : Option TaskId) :
    TaskId → Option Sentinel :=
  match o with
  | none => Function.update place x none
  | some p => Function.update (Function.update place x none) p (some .runQueue)

/-- A task that has not ended, and whose child has not, stays where it is. -/
theorem tornPlace_other {o : Option TaskId} (hy : y ≠ x) (hp : o ≠ some y) :
    tornPlace place x o y = place y := by
  unfold tornPlace
  cases o with
  | none => exact Function.update_of_ne hy _ _
  | some p =>
    have hyp : y ≠ p := fun he => hp (by rw [he])
    show Function.update (Function.update place x none) p (some Sentinel.runQueue) y = place y
    rw [Function.update_of_ne hyp, Function.update_of_ne hy]

theorem tornLinks_places {links : Links ListNode} (hp : Places links place)
    (htemp : ∀ y, place y ≠ some .tempList) {s : Sentinel} (hx : place x = some s)
    {o : Option TaskId} (ho : ∀ p, o = some p → p ≠ x ∧ place p = some .wait4childList) :
    Places (tornLinks links x o) (tornPlace place x o) := by
  have hreset := hp.reset_empty htemp
  have htaken : Places ((links.reset (.head .tempList)).move (.item x) (.head .tempList)
      ((links.reset (.head .tempList)).next (.head .tempList)))
      (Function.update place x (some .tempList)) := by
    refine hreset.move_head hx fun hn => ?_
    exact htemp x (hreset.next_head_item hn)
  -- `x` is alone on the temporary list, which is thrown away in the end
  have hclean : ∀ pl : TaskId → Option Sentinel, (∀ y, y ≠ x → pl y ≠ some .tempList) →
      pl x = some .tempList →
      (fun y => if pl y = some .tempList then none else pl y) = Function.update pl x none := by
    intro pl hpl hplx
    funext y
    by_cases hy : y = x
    · subst hy
      rw [if_pos hplx, Function.update_self]
    · rw [if_neg (hpl y hy), Function.update_of_ne hy]
  unfold tornLinks tornPlace
  cases o with
  | none =>
    have hend := htaken.reset_head (s := .tempList)
    rw [hclean _ (fun y hy => by rw [Function.update_of_ne hy]; exact htemp y)
      (Function.update_self _ _ _), Function.update_idem] at hend
    exact hend
  | some p =>
    obtain ⟨hne, hpw⟩ := ho p rfl
    have hp' : Function.update place x (some Sentinel.tempList) p = some .wait4childList := by
      rw [Function.update_of_ne hne, hpw]
    have hwoken := htaken.move_head (s := .runQueue) hp' fun hn => by
      have := htaken.next_head_item hn
      rw [hp'] at this
      cases this
    have hlisted : ∀ y, y ≠ x → Function.update (Function.update place x (some Sentinel.tempList)) p
        (some .runQueue) y ≠ some .tempList := by
      intro y hy
      by_cases hyp : y = p
      · rw [hyp, Function.update_self]
        decide
      · rw [Function.update_of_ne hyp, Function.update_of_ne hy]
        exact htemp y
    have hend := hwoken.reset_head (s := .tempList)
    rw [hclean _ hlisted (by rw [Function.update_of_ne hne.symm, Function.update_self])] at hend
    have he : Function.update (Function.update (Function.update place x (some Sentinel.tempList)) p
        (some .runQueue)) x none = Function.update (Function.update place x none) p
          (some .runQueue) := by
      rw [Function.update_comm hne.symm, Function.update_idem, Function.update_comm hne]
    rw [he] at hend
    exact hend

/-! ## The loop of the RTC -/

/-- The RTC moves tasks from its list to the run queue, and no others. -/
def RtcMoves (place place' : TaskId → Option Sentinel) : Prop :=
  ∀ y, place' y = place y ∨ place y = some .rtcWaitList ∧ place' y = some .runQueue

theorem RtcMoves.trans {place'' : TaskId → Option Sentinel} (h : RtcMoves place place')
    (h' : RtcMoves place' place'') : RtcMoves place place'' := by
  intro y
  rcases h y with hy | ⟨hy, hy'⟩
  · rcases h' y with hy' | ⟨hy', hy''⟩
    · exact Or.inl (hy'.trans hy)
    · exact Or.inr ⟨hy ▸ hy', hy''⟩
  · rcases h' y with hy'' | ⟨hr, -⟩
    · exact Or.inr ⟨hy, hy''.trans hy'⟩
    · rw [hy'] at hr
      cases hr

/-- The node from which the loop goes on, with the tasks `ys` still to visit. -/
def rtcNode (ys : List TaskId) : ListNode := (ys.head?.map Node.item).getD (.head .rtcWaitList)

theorem rtcNode_next {links : Links ListNode} {q : Sentinel → List TaskId} (hq : Rings links q)
    {pre ys : List TaskId} (h : q .rtcWaitList = pre ++ x :: ys) :
    links.next (.item x) = rtcNode ys := by
  have hpath := hq.path .rtcWaitList
  rw [h] at hpath
  exact path_next (path_append.mp hpath).2

/-- **The loop of the RTC.**  The induction is on the tasks left to visit; those before
them stay on the list. -/
theorem rtcLoop_places {ys : List TaskId} : ∀ {n : ℕ} {m m' : Kernel} {w w' : ℕ}
    {pre : List TaskId} {q : Sentinel → List TaskId} {place : TaskId → Option Sentinel},
    Rings m.links q → (∀ x s, x ∈ q s ↔ place x = some s) → q .rtcWaitList = pre ++ ys →
    rtcLoop n m w (rtcNode ys) = .ok (m', w') →
    ∃ place', Places m'.links place' ∧ RtcMoves place place' := by
  induction ys with
  | nil =>
    intro n m m' w w' pre q place hq hp hys h
    unfold rtcLoop at h
    rw [if_pos (by rw [rtcNode]; rfl)] at h
    cases h
    exact ⟨place, ⟨q, hq, hp⟩, fun y => Or.inl rfl⟩
  | cons x ys ih =>
    intro n m m' w w' pre q place hq hp hys h
    unfold rtcLoop at h
    rw [if_neg (by rw [rtcNode]; simp)] at h
    cases n with
    | zero => cases h
    | succ n =>
      simp only at h
      obtain ⟨x', hx', h⟩ := bind_eq_ok.mp h
      obtain rfl : x = x' := by
        have := taskFromNode_eq hx'
        injection this
      obtain ⟨⟨m₁, w₁⟩, htick, h⟩ := bind_eq_ok.mp h
      have hnext : m.links.next (rtcNode (x :: ys)) = rtcNode ys := rtcNode_next hq hys
      rw [hnext] at h
      rcases rtcTick_cases htick with ⟨-, -, rfl⟩ | ⟨-, -, p, -, rfl⟩
      · -- the task stays on the list
        have hys' : q .rtcWaitList = (pre ++ [x]) ++ ys := by rw [hys]; simp
        exact ih (m := m.modifyTask x tickedTask) hq hp hys' h
      · -- the task goes to the run queue
        have hxr : x ∈ q .rtcWaitList := by rw [hys]; simp
        have hplace : place x = some .rtcWaitList := (hp x _).mp hxr
        have hne : m.links.next (.head .runQueue) ≠ .item x := by
          intro hn
          have := (hp x _).mp (List.mem_of_head? (hq.next_head_eq_item.mp hn))
          rw [hplace] at this
          cases this
        have hmoved := hq.move_head hxr hne
        have hcons : ∀ y, y ∈ x :: (q .runQueue).erase x ↔ y = x ∨ y ∈ (q .runQueue).erase x :=
          fun y => List.mem_cons
        have hp' := mem_insert_iff hp hq.nodup hcons
        have hnd := hq.nodup .rtcWaitList
        rw [hys] at hnd
        have hys' : Function.update (fun s => (q s).erase x) Sentinel.runQueue
            (x :: (q .runQueue).erase x) .rtcWaitList = pre ++ ys := by
          rw [Function.update_of_ne (by decide), hys]
          have hpre : x ∉ pre := fun hm =>
            (List.disjoint_of_nodup_append hnd) hm List.mem_cons_self
          rw [List.erase_append_right _ hpre, List.erase_cons_head]
        obtain ⟨place', hplaces, hmoves⟩ := ih hmoved hp' hys' h
        refine ⟨place', hplaces, RtcMoves.trans (fun y => ?_) hmoves⟩
        by_cases hy : y = x
        · exact Or.inr ⟨hy ▸ hplace, by rw [hy, Function.update_self]⟩
        · exact Or.inl (Function.update_of_ne hy _ _)

/-- The loop from the beginning of the list. -/
theorem rtcLoop_moves {n : ℕ} {w w' : ℕ} (hp : Places k.links place)
    (h : rtcLoop n k w (k.links.next (.head .rtcWaitList)) = .ok (k', w')) :
    ∃ place', Places k'.links place' ∧ RtcMoves place place' := by
  obtain ⟨q, hq, hpq⟩ := hp
  rw [hq.next_head] at h
  exact rtcLoop_places hq hpq (List.nil_append _).symm h

/-! ## Steps that leave the stacks -/

theorem Shaped.idle_runs (h : k.Shaped st place) : ∃ z, place z = some .runQueue := by
  obtain ⟨z, hz, hi⟩ := h.stacked.idle
  exact ⟨z, h.listed.kernel z hz (h.stacked.idleKernel z hz hi)⟩

/-- No task leaves or joins those that wait for a child, and a kernel task stays on the run
queue. -/
def Moves (k : Kernel) (place place' : TaskId → Option Sentinel) : Prop :=
  ∀ y, place' y = place y ∨ (place y ≠ none ∧ place y ≠ some .wait4childList ∧
    ∃ s, place' y = some s ∧ s ≠ .wait4childList ∧ s ≠ .tempList ∧
      ((k.task y).flags.kernelTask = true → s = .runQueue))

theorem Kept.shaped_moved (h : Kept k k') (hs : k.Shaped st place) (hp : Places k'.links place')
    (hm : k.Moves place place') : k'.Shaped st place' where
  stacked := h.stacked hs.stacked
  listed := by
    refine ⟨hp, fun y => ?_, fun y => ?_, fun y hy hk => ?_, fun y => ?_⟩
    · rw [h.valid, hs.listed.valid]
      rcases hm y with hy | ⟨hne, -, s, hs', -⟩
      · rw [hy]
      · simp [hs', hne]
    · rcases hm y with hy | ⟨-, -, s, hs', -, ht, -⟩
      · rw [hy]
        exact hs.listed.temp y
      · rw [hs']
        exact fun he => ht (Option.some.inj he)
    · have hy' : (k.task y).valid = true := (h.valid y).symm.trans hy
      have hk' : (k.task y).flags.kernelTask = true := (h.held y hy').kernelTask ▸ hk
      rcases hm y with he | ⟨-, -, s, hs', -, -, hq⟩
      · rw [he, hs.listed.kernel y hy' hk']
      · rw [hs', hq hk']
    · rw [← hs.listed.waiting]
      rcases hm y with he | ⟨-, hne, s, hs', hw, -⟩
      · rw [he]
      · rw [hs']
        exact ⟨fun he => absurd (Option.some.inj he) hw, fun he => absurd he hne⟩

theorem Kept.shaped (h : Kept k k') (hs : k.Shaped st place) (hp : Places k'.links place) :
    k'.Shaped st place :=
  h.shaped_moved hs hp fun _ => Or.inl rfl

theorem Calm.shaped (h : Calm k k') (hs : k.Shaped st place) : k'.Shaped st place :=
  h.kept.shaped hs (h.links ▸ hs.listed.places)

theorem Untouched.places (h : Untouched k k') (hs : k.Shaped st place) :
    Places k'.links place := by
  refine hs.listed.places.congr fun n hn => h.links n ?_
  intro y hy
  exact (hs.listed.valid y).mpr (hn y hy)

/-- One task that is not waiting for a child goes to another list. -/
theorem moves_update (k : Kernel) {s : Sentinel} (hx : place x ≠ none)
    (hw : place x ≠ some .wait4childList) (hs : s ≠ .wait4childList) (ht : s ≠ .tempList)
    (hk : (k.task x).flags.kernelTask = true → s = .runQueue) :
    k.Moves place (Function.update place x (some s)) := by
  intro y
  by_cases hy : y = x
  · subst hy
    exact Or.inr ⟨hx, hw, s, Function.update_self _ _ _, hs, ht, hk⟩
  · exact Or.inl (Function.update_of_ne hy _ _)

theorem RtcMoves.moves (k : Kernel) (h : RtcMoves place place') : k.Moves place place' := by
  intro y
  rcases h y with hy | ⟨hy, hy'⟩
  · exact Or.inl hy
  · exact Or.inr ⟨by rw [hy]; simp, by rw [hy]; decide, .runQueue, hy', by decide, by decide,
      fun _ => rfl⟩

theorem Scheduled.shaped (h : Scheduled noise k k') (hs : k.Shaped st place) :
    k'.Shaped st place ∧ place k'.running = some .runQueue := by
  obtain ⟨hp, hr⟩ := h.places hs.listed.places hs.idle_runs
  refine ⟨⟨h.stacked hs.stacked, hp, fun y => ?_, hs.listed.temp, fun y hy hk => ?_,
    hs.listed.waiting⟩, hr⟩
  · rw [h.task]
    exact hs.listed.valid y
  · rw [h.task] at hy hk
    exact hs.listed.kernel y hy hk

theorem Shaped.vidmapped (hs : k.Shaped st place) (u : TermId) :
    (k.vidmapped u).Shaped st place := by
  have hflags : ∀ y, ((k.vidmapped u).task y).flags = (k.task y).flags := by
    intro y
    show ((k.modifyTask k.running fun t => { t with vidmapEnabled := true }).task y).flags = _
    by_cases hy : y = k.running
    · simp [hy]
    · simp [hy]
  refine ⟨hs.stacked.vidmapped u, hs.listed.places, fun y => ?_, hs.listed.temp,
    fun y hy hk => ?_, hs.listed.waiting⟩
  · rw [k.vidmapped_valid]
    exact hs.listed.valid y
  · rw [k.vidmapped_valid] at hy
    rw [hflags] at hk
    exact hs.listed.kernel y hy hk

/-! ## A task is started -/

theorem Launched.shaped {a : ExecuteArgs} (h : Launched k a x k') (hs : k.Shaped st place)
    (hk : k.Sound) (ha : k.UserCall a) (hr : place k.running = some .runQueue) :
    k'.Shaped (pushed st (k.launchTerminal a) x) (launchPlace place a x k.running) ∧
      launchPlace place a x k.running k'.running = some .runQueue := by
  have hxn : place x = none := by
    by_contra hne
    have := (hs.listed.valid x).mpr hne
    rw [h.fresh] at this
    cases this
  have hne : k.running ≠ x := h.fresh_ne_running hk.running
  have hstacked := h.stacked hs.stacked hk.windowed hk.running hk.taskCount_pos ha
    fun t ht => hs.running_top hr ht
  have hplaces : Places k'.links (launchPlace place a x k.running) := by
    rw [h.links]
    exact launchLinks_places hs.listed.places a hxn hr
  have hold : ∀ y, y ≠ x → y ≠ k.running → launchPlace place a x k.running y = place y := by
    intro y hy hyr
    unfold launchPlace
    split
    · rw [Function.update_of_ne hyr, Function.update_of_ne hy]
    · rw [Function.update_of_ne hy]
  have hself : launchPlace place a x k.running x = some .runQueue := by
    unfold launchPlace
    split
    · rw [Function.update_of_ne hne.symm, Function.update_self]
    · rw [Function.update_self]
  have hcaller : launchPlace place a x k.running k.running
      = if a.wait = 1 then some .wait4childList else some .runQueue := by
    unfold launchPlace
    split
    · rw [Function.update_self]
    · rw [Function.update_of_ne hne, hr]
  refine ⟨⟨hstacked, hplaces, fun y => ?_, fun y => ?_, fun y hy hkt => ?_, fun y => ?_⟩, ?_⟩
  · rw [h.valid_iff, hs.listed.valid]
    by_cases hy : y = x
    · simp [hy, hself]
    · by_cases hyr : y = k.running
      · rw [hyr, hcaller, hr]
        split <;> simp
      · rw [hold y hy hyr]
        simp [hy]
  · by_cases hy : y = x
    · rw [hy, hself]
      decide
    · by_cases hyr : y = k.running
      · rw [hyr, hcaller]
        split <;> decide
      · rw [hold y hy hyr]
        exact hs.listed.temp y
  · by_cases hy' : y = x
    · rw [hy', h.flags] at hkt
      have : a.kernelTask = true := hkt
      rw [ha.1] at this
      cases this
    · have hyv : (k.task y).valid = true := (h.held hy').1 ▸ hy
      have hykt : (k.task y).flags.kernelTask = true := (h.held hy').2.kernelTask ▸ hkt
      by_cases hyr : y = k.running
      · rw [hyr, hcaller]
        rw [hyr] at hykt
        rcases ha.2 with ⟨-, -, hu⟩ | ⟨hw, -⟩
        · rw [show (k.task k.running).flags.kernelTask = false from hu] at hykt
          cases hykt
        · rw [if_neg (by rw [hw]; decide)]
      · rw [hold y hy' hyr]
        exact hs.listed.kernel y hyv hykt
  · obtain ⟨t, ht, hcase⟩ := launchTerminal_cases hs.stacked hk.taskCount_pos ha h hk.running
    have hpush : ∀ u, (pushed st (k.launchTerminal a) x u).tail
        = if u = t then st t else (st u).tail := by
      intro u
      unfold pushed
      rw [ht]
      by_cases hu : u = t
      · rw [hu, if_pos rfl, if_pos rfl]
        rfl
      · rw [if_neg hu, if_neg fun he => hu (Option.some.inj he).symm]
    -- the tasks behind a top are those from before, and the caller if it waits
    have htails : (∃ u, y ∈ (pushed st (k.launchTerminal a) x u).tail) ↔
        y ∈ st t ∨ ∃ u, y ∈ (st u).tail := by
      constructor
      · rintro ⟨u, hu⟩
        rw [hpush] at hu
        split at hu
        · exact Or.inl hu
        · exact Or.inr ⟨u, hu⟩
      · rintro (hy | ⟨u, hu⟩)
        · exact ⟨t, by rw [hpush, if_pos rfl]; exact hy⟩
        · refine ⟨u, ?_⟩
          rw [hpush]
          by_cases hut : u = t
          · rw [if_pos hut]
            exact hut ▸ List.mem_of_mem_tail hu
          · rw [if_neg hut]
            exact hu
    rw [htails, ← hs.listed.waiting]
    have hxt : x ∉ st t := by
      intro hx
      have := ((hs.stacked.member t x).mp hx).1
      rw [h.fresh] at this
      cases this
    rcases hcase with ⟨hw, -, hrun⟩ | ⟨hw, -, hnil⟩
    · have htop := hs.running_top hr hrun
      have hst : ∀ y, y ∈ st t ↔ y = k.running ∨ y ∈ (st t).tail := by
        intro y
        obtain ⟨rest, hst⟩ := List.head?_eq_some_iff.mp htop
        rw [hst, List.mem_cons]
        rfl
      by_cases hy : y = x
      · rw [hy, hself, hxn]
        simp [hxt]
      · by_cases hyr : y = k.running
        · rw [hyr, hcaller, if_pos hw]
          simp [hrun]
        · rw [hold y hy hyr, hst]
          refine ⟨Or.inr, ?_⟩
          rintro ((he | htail) | hwait)
          · exact absurd he hyr
          · exact (hs.listed.waiting y).mpr ⟨t, htail⟩
          · exact hwait
    · rw [hnil]
      by_cases hy : y = x
      · rw [hy, hself, hxn]
        simp
      · by_cases hyr : y = k.running
        · rw [hyr, hcaller, if_neg (by rw [hw]; decide), hr]
          simp
        · rw [hold y hy hyr]
          simp
  · rw [h.running, hself]

/-! ## A task ends -/

/-- The parent of a task on top of a stack waits for it. -/
theorem Shaped.parent_waits (hs : k.Shaped st place) (hx : (st t).head? = some x) {p : TaskId}
    (hp : (k.task x).parent = some p) : p ≠ x ∧ place p = some .wait4childList := by
  rcases hs.stacked.top_cases hx with ⟨-, hnone, -⟩ | ⟨p', rest, hst, hp', -⟩
  · rw [hp] at hnone
    cases hnone
  · obtain rfl : p = p' := Option.some.inj (hp.symm.trans hp')
    have hnd := hs.stacked.nodup t
    rw [hst, List.nodup_cons] at hnd
    refine ⟨fun he => hnd.1 (he ▸ List.mem_cons_self), (hs.listed.waiting p).mpr ⟨t, ?_⟩⟩
    rw [hst]
    exact List.mem_cons_self

/-- The tasks behind the tops without the top of one stack: its parent has come to the top. -/
theorem Shaped.popped_tail (hs : k.Shaped st place) (hx : (st t).head? = some x) (y : TaskId) :
    (∃ u, y ∈ (popped st t u).tail) ↔
      (∃ u, y ∈ (st u).tail) ∧ (k.task x).parent ≠ some y := by
  have hother : ∀ u, u ≠ t → (popped st t u).tail = (st u).tail := fun u hu => by
    rw [popped, if_neg hu]
  have hself : (popped st t t).tail = (st t).tail.tail := by rw [popped, if_pos rfl]
  have hall : (∃ u, y ∈ (popped st t u).tail) ↔
      y ∈ (st t).tail.tail ∨ ∃ u, u ≠ t ∧ y ∈ (st u).tail := by
    constructor
    · rintro ⟨u, hu⟩
      by_cases hut : u = t
      · rw [hut, hself] at hu
        exact Or.inl hu
      · rw [hother u hut] at hu
        exact Or.inr ⟨u, hut, hu⟩
    · rintro (hy | ⟨u, hu, hy⟩)
      · exact ⟨t, hself ▸ hy⟩
      · exact ⟨u, by rw [hother u hu]; exact hy⟩
  have hsplit : (∃ u, y ∈ (st u).tail) ↔ y ∈ (st t).tail ∨ ∃ u, u ≠ t ∧ y ∈ (st u).tail := by
    constructor
    · rintro ⟨u, hu⟩
      by_cases hut : u = t
      · exact Or.inl (hut ▸ hu)
      · exact Or.inr ⟨u, hut, hu⟩
    · rintro (hy | ⟨u, -, hy⟩)
      · exact ⟨t, hy⟩
      · exact ⟨u, hy⟩
  rw [hall, hsplit]
  rcases hs.stacked.top_cases hx with ⟨hone, hnone, -⟩ | ⟨p, rest, htwo, hp, -⟩
  · rw [hone, hnone]
    simp
  · have hnd := hs.stacked.nodup t
    rw [htwo, List.nodup_cons, List.nodup_cons] at hnd
    have hpt := (hs.stacked.member t p).mp (by rw [htwo]; simp)
    rw [htwo, hp]
    simp only [List.tail_cons, List.mem_cons, ne_eq, Option.some.injEq]
    constructor
    · rintro (hy | ⟨u, hu, hy⟩)
      · exact ⟨Or.inl (Or.inr hy), fun he => hnd.2.1 (he ▸ hy)⟩
      · refine ⟨Or.inr ⟨u, hu, hy⟩, ?_⟩
        rintro rfl
        have := ((hs.stacked.member u p).mp (List.mem_of_mem_tail hy)).2
        exact hu (Option.some.inj (this.symm.trans hpt.2))
    · rintro ⟨(he | hy) | hy, hne⟩
      · exact absurd he.symm hne
      · exact Or.inl hy
      · exact Or.inr hy

/-- **A task on top of a stack ends**, and its parent can run again. -/
theorem TornDown.shaped (h : TornDown x k k') (hs : k.Shaped st place)
    (hx : (st t).head? = some x) :
    k'.Shaped (popped st t) (tornPlace place x (k.task x).parent) := by
  have hpar := fun p hp => hs.parent_waits hx (p := p) hp
  obtain ⟨s, hxs⟩ := hs.place_of_valid h.valid
  have hplaces : Places k'.links (tornPlace place x (k.task x).parent) := by
    rw [h.links]
    exact tornLinks_places hs.listed.places hs.listed.temp hxs hpar
  have hdead : tornPlace place x (k.task x).parent x = none := by
    unfold tornPlace
    cases hp : (k.task x).parent with
    | none => exact Function.update_self _ _ _
    | some p =>
      show Function.update (Function.update place x none) p (some Sentinel.runQueue) x = none
      rw [Function.update_of_ne (hpar p hp).1.symm, Function.update_self]
  have hwoken : ∀ p, (k.task x).parent = some p →
      tornPlace place x (k.task x).parent p = some .runQueue := by
    intro p hp
    rw [hp]
    exact Function.update_self _ _ _
  have hold : ∀ y, y ≠ x → (k.task x).parent ≠ some y →
      tornPlace place x (k.task x).parent y = place y := fun y hy hne => tornPlace_other hy hne
  refine ⟨h.stacked hs.stacked hx, hplaces, fun y => ?_, fun y => ?_, fun y hy hk => ?_,
    fun y => ?_⟩
  · rw [h.valid_iff, hs.listed.valid]
    by_cases hy : y = x
    · simp [hy, hdead]
    · by_cases hyp : (k.task x).parent = some y
      · rw [hwoken y hyp, (hpar y hyp).2]
        simp [hy]
      · rw [hold y hy hyp]
        simp [hy]
  · by_cases hy : y = x
    · simp [hy, hdead]
    · by_cases hyp : (k.task x).parent = some y
      · rw [hwoken y hyp]
        decide
      · rw [hold y hy hyp]
        exact hs.listed.temp y
  · obtain ⟨hyv, hne⟩ := (h.valid_iff y).mp hy
    by_cases hyp : (k.task x).parent = some y
    · exact hwoken y hyp
    · rw [hold y hne hyp]
      exact hs.listed.kernel y hyv ((h.held hne).2.kernelTask ▸ hk)
  · rw [hs.popped_tail hx, ← hs.listed.waiting]
    by_cases hy : y = x
    · rw [hy, hdead]
      simp [hs.not_waiting hx]
    · by_cases hyp : (k.task x).parent = some y
      · rw [hwoken y hyp]
        simp [hyp]
      · rw [hold y hy hyp]
        simp [hyp]

/-- Back in the parent, the lists are those behind the end of the task. -/
theorem ToParent.shaped {p : TaskId} {status : BitVec 32} (h : ToParent p status x k k')
    (hs : k.Shaped st place) : k'.Shaped st place := by
  refine ⟨h.stacked hs.stacked, h.links ▸ hs.listed.places, fun y => ?_, hs.listed.temp,
    fun y hy hk => ?_, hs.listed.waiting⟩
  · rw [h.task]
    exact hs.listed.valid y
  · rw [h.task] at hy hk
    exact hs.listed.kernel y hy hk

/-- The task whose window is closed is the foreground task of a terminal. -/
theorem mouseCloses_fg {flags : UInt8} (h : k.mouseCloses flags = some x) :
    ∃ t, k.terminalFgTask t = some x := by
  unfold mouseCloses at h
  split at h
  · obtain ⟨t, -, ht⟩ := Option.bind_eq_some_iff.mp h
    exact ⟨_, ht⟩
  · cases h

theorem closes_fg (h : k₀.closes l = some x) : ∃ t, k₀.terminalFgTask t = some x := by
  unfold closes at h
  split at h
  · exact mouseCloses_fg (Option.filter_eq_some_iff.mp h).1
  · cases h

/-- A task that halts is a user task, or its window is closed. -/
theorem halts_cases {cause : EndCause} (h : k₀.halts l = some cause) :
    k₀.runningTask.flags.kernelTask = false ∨ ∃ t, k₀.terminalFgTask t = some k₀.running := by
  unfold halts at h
  split at h
  · split at h
    · cases h
    · next hkt => exact Or.inl (by simpa using hkt)
  · split at h
    · cases h
    · next hkt => exact Or.inl (by simpa using hkt)
  · split at h
    · next hclose => exact Or.inr (mouseCloses_fg hclose)
    · cases h
  · cases h

/-- **A task that halts is on top of a stack.** -/
theorem Shaped.halting_top (hs : k₀.Shaped st place) (hk : k₀.Sound)
    (hr : place k₀.running = some .runQueue) {cause : EndCause} (h : k₀.halts l = some cause) :
    ∃ t, (st t).head? = some k₀.running := by
  rcases halts_cases h with hu | ⟨t, ht⟩
  · obtain ⟨t, -, hmem⟩ := hs.stacked.user_terminal hk.running hu
    exact ⟨t, hs.running_top hr hmem⟩
  · exact ⟨t, (hs.stacked.fg t).symm.trans ht⟩

/-- What has ended comes from the run queue, or from another list; the running task stays. -/
theorem tornPlace_running (hr : place k.running = some .runQueue) (hx : k.running ≠ x)
    (o : Option TaskId) : tornPlace place x o k.running = some .runQueue := by
  unfold tornPlace
  cases o with
  | none =>
    show Function.update place x none k.running = _
    rw [Function.update_of_ne hx, hr]
  | some p =>
    show Function.update (Function.update place x none) p (some Sentinel.runQueue) k.running = _
    by_cases hp : k.running = p
    · rw [hp, Function.update_self]
    · rw [Function.update_of_ne hp, Function.update_of_ne hx, hr]

/-! ## A task sleeps and is woken -/

/-- The running task goes to sleep on a list. -/
theorem Shaped.asleep (hs : k.Shaped st place)
    (hr : place k.running = some .runQueue) (hu : k.runningTask.flags.kernelTask = false)
    {s : Sentinel} (hq : s ≠ .runQueue) (hw : s ≠ .wait4childList) (ht : s ≠ .tempList)
    {f : Task → Task} (hf : ∀ t : Task, (f t).valid = t.valid ∧ t.SameHoldings (f t)) :
    (k.asleep s f).Shaped st (Function.update place k.running (some s)) := by
  refine (k.kept_asleep s hf).shaped_moved hs (asleep_places hs.listed.places hr hq f) ?_
  refine k.moves_update (by rw [hr]; simp) (by rw [hr]; decide) hw ht fun hk => ?_
  rw [show (k.task k.running).flags.kernelTask = false from hu] at hk
  cases hk

/-- A task on top of a stack is woken by a key. -/
theorem Shaped.keyWoken (hs : k.Shaped st place) (hx : (st t).head? = some x)
    (hne : k.links.next (.head .runQueue) ≠ .item x) :
    (k.keyWoken x).Shaped st (Function.update place x (some .runQueue)) := by
  obtain ⟨s, hxs⟩ := hs.place_of_valid (hs.stacked.head hx).1
  refine (k.kept_keyWoken x).shaped_moved hs (keyWoken_places hs.listed.places hxs hne) ?_
  exact k.moves_update (by rw [hxs]; simp) (hs.not_waiting hx) (by decide) (by decide) fun _ => rfl

end Kernel

end AuroraOS
