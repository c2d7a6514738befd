/-
# What execute returns

`system_execute` leaves its frame on the stack of the caller and goes on in the new task.
When the child halts, `halt_backtrack` puts the status into EAX and comes back to that frame:
EAX is what the call returns.  The scheduler comes back to it as well, when the caller does
not wait or the window of the child is closed, and leaves in EAX what it finds there.
-/
import AuroraOS.TaskLists

namespace AuroraOS

open Ring Machine

namespace Kernel

variable {k k' k₀ k₁ : Kernel} {img : FsImage} {noise : Noise} {l : Label} {x y p : TaskId}
variable {st : TermId → List TaskId} {t : TermId}

/-! ## The statement -/

/-- **The call of `execute` in the task `p` returns `value`**: nothing else can happen, and the
value is what comes to the EAX of the program. -/
structure ExecuteReturns (img : FsImage) (k : Kernel) (p : TaskId) (value : ℤ) : Prop where
  running : k.running = p
  called : ∃ fs, (k.task p).kstack = .executeLaunch true :: .syscallDone :: fs
  alone : ∀ l, l.event ≠ .resume → k.step img l = .error .disabled
  returned : ∀ noise noise', ∃ k', run (fun k l => k.step img l) k
    [⟨.resume, noise⟩, ⟨.resume, noise'⟩] = .ok k' ∧ k'.running = p ∧
      (k'.task p).hwEax.toInt = value

/-- **What the calls of `system_execute` return** behind a step from `k` to `k'`: the status of a
child that halts and 256 for one that an exception ends, not -1 if a child was started, and -1
if the caller does not wait. -/
structure ReturnContract (img : FsImage) (k : Kernel) (l : Label) (k' : Kernel) : Prop where
  halt : ∀ v p, k.halts l = some (.call v) → k.runningTask.parent = some p →
    k'.ExecuteReturns img p (v.toNat % 256 : ℕ)
  exception : ∀ p, k.halts l = some .exception → k.runningTask.parent = some p →
    k'.ExecuteReturns img p 256
  started : ∀ fs, k'.runningTask.kstack = .executeLaunch true :: fs → k'.eax ≠ -1
  unwaited : ∀ fs, k'.runningTask.kstack = .executeLaunch false :: fs → k'.eax = -1

/-- The value in the register when the running task calls `halt`. -/
def haltCall (k : Kernel) (l : Label) : Option ℕ :=
  match k.halts l with
  | some (.call v) => some v.toNat
  | _ => none

/-- The task is inside `system_execute`, and waits for the child or not. -/
def inExecute (k : Kernel) (x : TaskId) : Option Bool :=
  match (k.task x).kstack with
  | .executeLaunch w :: _ => some w
  | _ => none

/-- The scheduler leads from `k` to another task: not to a new one, and not back from a child
that halts. -/
def Switches (k k' : Kernel) : Prop :=
  k'.running ≠ k.running ∧ (k.task k'.running).valid = true ∧
    ((k'.task k.running).valid = true ∨ k.runningTask.parent = none)

instance (k k' : Kernel) : Decidable (Switches k k') := inferInstanceAs (Decidable (_ ∧ _ ∧ _))

/-- A child halts with a status below 256; and when the scheduler switches to a task inside
`system_execute`, it finds -1 in EAX if that task does not wait, and otherwise something else,
and the child has ended. -/
def KeepsReturns (img : FsImage) (k : Kernel) (l : Label) : Prop :=
  (∀ n ∈ k.haltCall l, k.runningTask.parent ≠ none → n < 256) ∧
    ∀ k' ∈ (k.step img l).toOption, Switches k k' → ∀ w ∈ k.inExecute k'.running,
      (w = false → l.noise.eax = -1) ∧ (w = true → l.noise.eax ≠ -1 ∧
        ∀ x, (k.task x).valid = true → (k.task x).parent ≠ some k'.running)

instance (img : FsImage) (k : Kernel) (l : Label) : Decidable (KeepsReturns img k l) :=
  inferInstanceAs (Decidable ((∀ n ∈ k.haltCall l, _ → _) ∧
    ∀ k' ∈ (k.step img l).toOption, _ → ∀ w ∈ k.inExecute k'.running, (_ → _) ∧ (_ → _ ∧ _)))

/-! ## The invariant -/

/-- The stack of a task that waits in `execute`. -/
def executeFrames : List Frame := [.executeLaunch true, .syscallDone, .signalCheck]

/-- **The stacks of the tasks**: a call of `system_execute` is on top, and the tasks behind the
top of a terminal wait in one. -/
structure Called (k : Kernel) (st : TermId → List TaskId) : Prop where
  stacked : k.Stacked st
  frames : ∀ x, (k.task x).valid = true → LaunchFree (k.task x).kstack.tail
  waiting : ∀ t p, p ∈ (st t).tail → p ≠ k.running ∧ (k.task p).kstack = executeFrames

/-- What the top call of the running task is about to return. -/
structure Returned (k : Kernel) : Prop where
  started : ∀ fs, k.runningTask.kstack = .executeLaunch true :: fs → k.eax ≠ -1
  unwaited : ∀ fs, k.runningTask.kstack = .executeLaunch false :: fs → k.eax = -1

theorem returned_of_launchFree (h : LaunchFree k.runningTask.kstack) : k.Returned := by
  have hnot : ∀ w fs, k.runningTask.kstack ≠ .executeLaunch w :: fs := by
    intro w fs he
    have := h (.executeLaunch w) (by rw [he]; exact List.mem_cons_self)
    cases this
  exact ⟨fun fs he => absurd he (hnot true fs), fun fs he => absurd he (hnot false fs)⟩

/-- Every task of a chain but the first has a child in it. -/
theorem chained_child {xs : List TaskId} (hc : k.Chained xs) (hp : p ∈ xs.tail) :
    ∃ x ∈ xs, (k.task x).parent = some p := by
  induction xs with
  | nil => cases hp
  | cons x xs ih =>
    cases xs with
    | nil => cases hp
    | cons q rest =>
      rcases List.mem_cons.mp hp with rfl | hp
      · exact ⟨x, List.mem_cons_self, hc.1.1⟩
      · obtain ⟨z, hz, hzp⟩ := ih hc.2 hp
        exact ⟨z, List.mem_cons_of_mem _ hz, hzp⟩

/-- A task behind the top of a terminal has a child. -/
theorem Stacked.child (hs : k.Stacked st) (hp : p ∈ (st t).tail) :
    ∃ x, (k.task x).valid = true ∧ (k.task x).parent = some p := by
  obtain ⟨x, hx, hxp⟩ := chained_child (hs.chain t) hp
  exact ⟨x, ((hs.member t x).mp hx).1, hxp⟩

/-- The task that runs is on top of its terminal. -/
theorem Called.running_top (h : k.Called st) (hr : k.running ∈ st t) :
    (st t).head? = some k.running := by
  cases hst : st t with
  | nil =>
    rw [hst] at hr
    cases hr
  | cons z zs =>
    rw [hst] at hr
    rcases List.mem_cons.mp hr with he | hm
    · rw [he, List.head?_cons]
    · exact absurd rfl (h.waiting t k.running (by rw [hst]; exact hm)).1

/-- **A task that halts is on top of a terminal.** -/
theorem Called.halting_top (h : k.Called st) (hk : k.Sound) {cause : EndCause}
    (hc : k.halts l = some cause) : ∃ t, (st t).head? = some k.running := by
  rcases halts_cases hc with hu | ⟨t, ht⟩
  · obtain ⟨t, -, hmem⟩ := h.stacked.user_terminal hk.running hu
    exact ⟨t, h.running_top hmem⟩
  · exact ⟨t, (h.stacked.fg t).symm.trans ht⟩

/-! ## Steps that leave the calls -/

/-- The stacks of the tasks that do not run are the same, and the running task enters no call of
`system_execute`. -/
structure SameCalls (k k' : Kernel) : Prop where
  running : k'.running = k.running
  valid : ∀ y, (k'.task y).valid = (k.task y).valid
  stacked : ∀ st, k.Stacked st → k'.Stacked st
  other : ∀ y, y ≠ k.running → (k.task y).valid = true → (k'.task y).kstack = (k.task y).kstack
  own : (k.task k.running).valid = true → LaunchFree (k.task k.running).kstack →
    LaunchFree (k'.task k.running).kstack

theorem SameCalls.trans (h : SameCalls k k₁) (h' : SameCalls k₁ k') : SameCalls k k' where
  running := h'.running.trans h.running
  valid := fun y => (h'.valid y).trans (h.valid y)
  stacked := fun st hs => h'.stacked st (h.stacked st hs)
  other := fun y hy hv => (h'.other y (h.running ▸ hy) ((h.valid y).trans hv)).trans
    (h.other y hy hv)
  own := fun hv hf => by
    have hf' := h'.own (by rw [h.valid, h.running, hv]) (h.running.symm ▸ h.own hv hf)
    rwa [h.running] at hf'

theorem Calm.sameCalls (h : Calm k k') : SameCalls k k' where
  running := h.running
  valid := h.kept.valid
  stacked := fun _ hs => h.kept.stacked hs
  other := fun y hy _ => h.kstack y hy
  own := fun _ => h.calls

/-- Nothing happens to the stacks of the valid tasks. -/
theorem Kept.sameCalls (h : Kept k k')
    (hstack : ∀ y, (k.task y).valid = true → (k'.task y).kstack = (k.task y).kstack) :
    SameCalls k k' where
  running := h.running
  valid := h.valid
  stacked := fun _ hs => h.stacked hs
  other := fun y _ hv => hstack y hv
  own := fun hv hf => by rwa [hstack _ hv]

/-- The running task sleeps inside another call. -/
theorem sameCalls_asleep (k : Kernel) (s : Sentinel) {f : Task → Task}
    (hf : ∀ t : Task, (f t).valid = t.valid ∧ t.SameHoldings (f t))
    (hfree : ∀ t : Task, LaunchFree t.kstack → LaunchFree (f t).kstack) :
    SameCalls k (k.asleep s f) where
  running := rfl
  valid := (k.kept_asleep s hf).valid
  stacked := fun _ hs => (k.kept_asleep s hf).stacked hs
  other := fun y hy _ => by
    show (Function.update k.task k.running _ y).kstack = _
    rw [Function.update_of_ne hy]
  own := fun _ h => by
    show LaunchFree (Function.update k.task k.running _ k.running).kstack
    rw [Function.update_self]
    exact hfree _ h

theorem sameCalls_vidmapped (k : Kernel) (u : TermId) : SameCalls k (k.vidmapped u) := by
  have hstack : ∀ y, ((k.vidmapped u).task y).kstack = (k.task y).kstack := by
    intro y
    show ((k.modifyTask k.running fun t => { t with vidmapEnabled := true }).task y).kstack = _
    by_cases hy : y = k.running
    · simp [hy]
    · simp [hy]
  exact ⟨rfl, k.vidmapped_valid u, fun _ hs => hs.vidmapped u, fun y _ _ => hstack y,
    fun _ h => by rwa [hstack]⟩

theorem SameCalls.called (h : SameCalls k k') (hc : k.Called st)
    (hv : (k.task k.running).valid = true) (hf : LaunchFree (k.task k.running).kstack) :
    k'.Called st ∧ LaunchFree (k'.task k.running).kstack := by
  refine ⟨⟨h.stacked st hc.stacked, fun y hy => ?_, fun t p hp => ?_⟩, h.own hv hf⟩
  · by_cases hyr : y = k.running
    · rw [hyr]
      exact (h.own hv hf).tail
    · rw [h.valid] at hy
      rw [h.other y hyr hy]
      exact hc.frames y hy
  · obtain ⟨hne, hstack⟩ := hc.waiting t p hp
    have hpv := ((hc.stacked.member t p).mp (List.mem_of_mem_tail hp)).1
    rw [h.running, h.other p hne hpv]
    exact ⟨hne, hstack⟩

/-- Behind the entry code the running task is in no call of `system_execute`. -/
theorem Called.entered (hc : k.Called st) (hv : (k.task k.running).valid = true) (l : Label) :
    (k.entered l).Called st ∧ LaunchFree ((k.entered l).task k.running).kstack := by
  have hown : LaunchFree ((k.entered l).task k.running).kstack := by
    cases hstack : k.runningTask.kstack with
    | nil =>
      have hfree : LaunchFree (k.task k.running).kstack := by
        rw [show (k.task k.running).kstack = [] from hstack]
        exact launchFree_nil
      exact (k.quiet_entered l).calls hfree
    | cons f rest =>
      -- the frame that is left may be the call, but below it there is none
      have hpop : k.entered l = k.pop := by simp [Kernel.entered, hstack]
      rw [hpop]
      show LaunchFree (Function.update k.task k.running _ k.running).kstack
      rw [Function.update_self]
      exact hc.frames _ hv
  have hq := (k.quiet_entered l).toCalm
  refine ⟨⟨hq.kept.stacked hc.stacked, fun y hy => ?_, fun t p hp => ?_⟩, hown⟩
  · by_cases hyr : y = k.running
    · rw [hyr]
      exact hown.tail
    · rw [hq.kstack y hyr]
      exact hc.frames y (hq.kept.valid y ▸ hy)
  · obtain ⟨hne, hstack⟩ := hc.waiting t p hp
    rw [hq.running, hq.kstack p hne]
    exact ⟨hne, hstack⟩

/-! ## The scheduler -/

theorem inExecute_eq_some {w : Bool} : k.inExecute x = some w ↔
    ∃ fs, (k.task x).kstack = .executeLaunch w :: fs := by
  unfold inExecute
  constructor
  · intro h
    split at h
    · next w' fs hfs =>
      obtain rfl := Option.some.inj h
      exact ⟨fs, hfs⟩
    · cases h
  · rintro ⟨fs, hfs⟩
    rw [hfs]

/-- **The scheduler switches to a task**, which returns from its call what is in EAX. -/
theorem Scheduled.called (h : Scheduled noise k k') (hc : k.Called st)
    (hstay : k'.running = k.running → LaunchFree (k.task k.running).kstack)
    (hswitch : k'.running ≠ k.running → ∀ w, k.inExecute k'.running = some w →
      (w = false → noise.eax = -1) ∧
        (w = true → noise.eax ≠ -1 ∧ ∀ t, k'.running ∉ (st t).tail)) :
    k'.Called st ∧ k'.Returned := by
  refine ⟨⟨h.stacked hc.stacked, fun y hy => ?_, fun t p hp => ?_⟩, ?_⟩
  · rw [h.task] at hy ⊢
    exact hc.frames y hy
  · obtain ⟨hne, hstack⟩ := hc.waiting t p hp
    rw [h.task]
    refine ⟨?_, hstack⟩
    rintro rfl
    have hin : k.inExecute k'.running = some true := inExecute_eq_some.mpr ⟨_, hstack⟩
    -- a task whose child is alive has not been chosen
    exact ((hswitch hne true hin).2 rfl).2 t hp
  · by_cases hr : k'.running = k.running
    · refine returned_of_launchFree ?_
      rw [runningTask, h.task, hr]
      exact hstay hr
    · have heax := (h.switch hr).2.1
      refine ⟨fun fs hfs => ?_, fun fs hfs => ?_⟩
      · rw [runningTask, h.task] at hfs
        rw [heax]
        exact ((hswitch hr true (inExecute_eq_some.mpr ⟨fs, hfs⟩)).2 rfl).1
      · rw [runningTask, h.task] at hfs
        rw [heax]
        exact (hswitch hr false (inExecute_eq_some.mpr ⟨fs, hfs⟩)).1 rfl

/-- The condition at a switch. -/
theorem KeepsReturns.switch (hc : KeepsReturns img k l) (hs : k.Stacked st)
    (h : k.step img l = .ok k') (hsw : Switches k k') (w : Bool)
    (hw : k.inExecute k'.running = some w) : (w = false → l.noise.eax = -1) ∧
      (w = true → l.noise.eax ≠ -1 ∧ ∀ t, k'.running ∉ (st t).tail) := by
  have hmem : k' ∈ (k.step img l).toOption := by
    rw [h]
    rfl
  obtain ⟨hno, hyes⟩ := hc.2 k' hmem hsw w hw
  refine ⟨hno, fun hw' => ⟨(hyes hw').1, fun t ht => ?_⟩⟩
  obtain ⟨x, hx, hxp⟩ := hs.child ht
  exact (hyes hw').2 x hx hxp

/-- Behind a step that leaves the calls the scheduler may choose another task. -/
theorem SameCalls.scheduled (h : SameCalls (k₀.entered l) k₁) (hsched : Scheduled l.noise k₁ k')
    (hk₀ : k₀.Sound) (hcall : k₀.Called st) (hc : KeepsReturns img k₀ l)
    (hstep : k₀.step img l = .ok k') : k'.Called st ∧ k'.Returned := by
  have hq := (k₀.quiet_entered l).toCalm
  obtain ⟨hent, hown⟩ := hcall.entered hk₀.running l
  rw [← hq.running] at hown
  obtain ⟨hcall₁, hown₁⟩ := h.called hent (hq.sound hk₀).running hown
  have hrun : k₁.running = k₀.running := h.running.trans hq.running
  have hvalid : ∀ y, (k₁.task y).valid = (k₀.task y).valid :=
    fun y => (h.valid y).trans (hq.kept.valid y)
  refine hsched.called hcall₁ (fun _ => by rw [h.running]; exact hown₁) fun hne w hw => ?_
  have hv : (k₀.task k'.running).valid = true := by
    rw [← hvalid]
    exact (hsched.switch hne).1
  have hsw : Switches k₀ k' := by
    refine ⟨hrun ▸ hne, hv, Or.inl ?_⟩
    rw [hsched.task, hvalid]
    exact hk₀.running
  refine hc.switch hcall.stacked hstep hsw w ?_
  rw [inExecute_eq_some] at hw ⊢
  obtain ⟨fs, hfs⟩ := hw
  refine ⟨fs, ?_⟩
  rw [← hfs, h.other _ (h.running ▸ hne) ((hq.kept.valid _).trans hv),
    hq.kstack _ (hrun ▸ hne)]

/-! ## A task is started or ends -/

/-- **A new task has no call on its stack**, and its caller waits in one. -/
theorem Launched.called {a : ExecuteArgs} (h : Launched k a x k') (hc : k.Called st)
    (hk : k.Sound) (hu : k.UserCall a) (hf : LaunchFree (k.task k.running).kstack)
    (hw : a.wait = 1 → (k.task k.running).kstack = [.syscallDone, .signalCheck]) :
    k'.Called (pushed st (k.launchTerminal a) x) ∧ k'.Returned := by
  obtain ⟨t, ht, hcase⟩ := launchTerminal_cases hc.stacked hk.taskCount_pos hu h hk.running
  have hne : k.running ≠ x := h.fresh_ne_running hk.running
  have hcaller : (k'.task k.running).kstack
      = .executeLaunch (a.wait = 1) :: (k.task k.running).kstack := by
    rw [h.caller]
    rfl
  have hfresh : ∀ u, x ∉ st u := by
    intro u hu'
    have := ((hc.stacked.member u x).mp hu').1
    rw [h.fresh] at this
    cases this
  have hold : ∀ u p, p ∈ (st u).tail → p ≠ k'.running ∧ (k'.task p).kstack = executeFrames := by
    intro u p hp
    obtain ⟨hpr, hstack⟩ := hc.waiting u p hp
    have hpx : p ≠ x := by
      rintro rfl
      exact hfresh u (List.mem_of_mem_tail hp)
    rw [h.running, h.other p hpx hpr]
    exact ⟨hpx, hstack⟩
  refine ⟨⟨h.stacked hc.stacked hk.windowed hk.running hk.taskCount_pos hu
    fun t ht => hc.running_top ht, fun y hy => ?_, fun u p hp => ?_⟩,
    returned_of_launchFree ?_⟩
  · by_cases hyx : y = x
    · rw [hyx, h.kstack]
      exact launchFree_nil
    · by_cases hyr : y = k.running
      · rw [hyr, hcaller]
        exact hf
      · rw [h.other y hyx hyr]
        exact hc.frames y ((h.held hyx).1 ▸ hy)
  · unfold pushed at hp
    split at hp
    · next he =>
      obtain rfl : t = u := Option.some.inj (ht.symm.trans he)
      have hp' : p ∈ st t := hp
      rcases hcase with ⟨hwait, -, hrun⟩ | ⟨-, -, hnil⟩
      · by_cases hpr : p = k.running
        · rw [hpr, h.running]
          refine ⟨hne, ?_⟩
          rw [hcaller, hw hwait, hwait]
          rfl
        · -- the other tasks of the terminal are behind the caller
          obtain ⟨rest, hst⟩ := List.head?_eq_some_iff.mp (hc.running_top hrun)
          refine hold t p ?_
          rw [hst] at hp' ⊢
          exact (List.mem_cons.mp hp').resolve_left hpr
      · rw [hnil] at hp'
        cases hp'
    · exact hold u p hp
  · rw [runningTask, h.running, h.kstack]
    exact launchFree_nil

theorem TornDown.kstack (h : TornDown x k k') (hy : y ≠ x) :
    (k'.task y).kstack = (k.task y).kstack := by
  by_cases hp : (k.task x).parent = some y
  · rw [h.parent y hy hp]
    rfl
  · rw [h.other y hy hp]

/-- Nobody comes behind a top. -/
theorem mem_popped_tail {u : TermId} (h : p ∈ (popped st t u).tail) : ∃ v, p ∈ (st v).tail := by
  unfold popped at h
  split at h
  · exact ⟨t, List.mem_of_mem_tail h⟩
  · exact ⟨u, h⟩

/-- **A task on top of a terminal ends.** -/
theorem TornDown.called (h : TornDown x k k') (hc : k.Called st) (hx : (st t).head? = some x) :
    k'.Called (popped st t) := by
  refine ⟨h.stacked hc.stacked hx, fun y hy => ?_, fun u p hp => ?_⟩
  · obtain ⟨hyv, hyx⟩ := (h.valid_iff y).mp hy
    rw [h.kstack hyx]
    exact hc.frames y hyv
  · obtain ⟨v, hv⟩ := mem_popped_tail hp
    obtain ⟨hne, hstack⟩ := hc.waiting v p hv
    have hpx : p ≠ x := by
      rintro rfl
      exact hc.stacked.head_not_tail hx v hv
    rw [h.running, h.kstack hpx]
    exact ⟨hne, hstack⟩

/-- The parent of a task on top of a terminal waits in a call of `execute`. -/
theorem Called.parent (hc : k.Called st) (hx : (st t).head? = some x)
    (hp : (k.task x).parent = some p) : p ≠ x ∧ (k.task p).kstack = executeFrames ∧
      (popped st t t).head? = some p := by
  rcases hc.stacked.top_cases hx with ⟨-, hnone, -⟩ | ⟨p', rest, hst, hp', -⟩
  · rw [hp] at hnone
    cases hnone
  · obtain rfl : p = p' := Option.some.inj (hp.symm.trans hp')
    have hmem : p ∈ (st t).tail := by
      rw [hst]
      exact List.mem_cons_self
    refine ⟨?_, (hc.waiting t p hmem).2, ?_⟩
    · rintro rfl
      exact hc.stacked.head_not_tail hx t hmem
    · rw [popped, if_pos rfl, hst]
      rfl

/-! ## The way back to the parent -/

/-- **A call of `execute` on top of the stack returns what is in EAX.** -/
theorem executeReturns_of_frames (hr : k.running = p) (hf : (k.task p).kstack = executeFrames) :
    k.ExecuteReturns img p k.eax.toInt := by
  subst hr
  have hstack : k.runningTask.kstack = executeFrames := hf
  refine ⟨rfl, ⟨_, hf⟩, fun l hl => ?_, fun noise noise' => ?_⟩
  · unfold step
    rw [hstack]
    cases he : l.event <;> first | rfl | exact absurd he hl
  -- label 1 of `execute_launch`
  · have hpop : k.step img ⟨.resume, noise⟩ = .ok k.pop := by
      simp only [step, hstack, executeFrames]
      rfl
    have hstack' : k.pop.runningTask.kstack = [.syscallDone, .signalCheck] := by
      have hself : k.pop.runningTask = { k.runningTask with
          kstack := k.runningTask.kstack.tail } := Function.update_self _ _ _
      rw [hself, hstack]
      rfl
    -- `system_call_entry_done` saves EAX for the program
    have hdone : k.pop.step img ⟨.resume, noise'⟩ = .ok (k.pop.pop.modifyTask k.running fun t =>
        { t with hwEax := k.eax }) := by
      simp only [step, hstack']
      rfl
    refine ⟨k.pop.pop.modifyTask k.running fun t => { t with hwEax := k.eax }, ?_, rfl, ?_⟩
    · simp only [run, hpop, hdone]
    · rw [modifyTask_task, Function.update_self]

/-- **A child that halts comes back to its parent**, with its status. -/
theorem Halted.executeReturns {status : BitVec 32} (h : Halted noise status k k')
    (hc : k.Called st) (hx : (st t).head? = some k.running)
    (hp : (k.task k.running).parent = some p) : k'.ExecuteReturns img p status.toInt := by
  cases h with
  | toParent p' k₁ hp' ht h =>
    obtain rfl : p = p' := Option.some.inj (hp.symm.trans hp')
    obtain ⟨hne, hstack, -⟩ := hc.parent hx hp
    rw [← h.eax]
    refine executeReturns_of_frames h.running ?_
    rw [h.task, ht.kstack hne, hstack]
  | alone k₁ hp' ht h hne =>
    rw [hp] at hp'
    cases hp'

/-- **A task that calls `halt`, or that a default handler ends, does halt.** -/
theorem step_halts {cause : EndCause} (hk : k.Sound) (hc : k.halts l = some cause)
    (hw : cause ≠ .window) (h : k.step img l = .ok k') :
    ∃ k₁, Quiet (k.entered l) k₁ ∧ Halted l.noise cause.status k₁ k' := by
  unfold halts at hc
  split at hc
  · next rest hstack he =>
    split at hc
    · cases hc
    · next hkt =>
      have hent : k.entered l = k.pop := by simp [entered, hstack]
      have hpop := k.quiet_pop.toCalm
      have hflags : k.pop.runningTask.flags = k.runningTask.flags := (hpop.core k.running).flags
      have hsignals : k.pop.runningTask.signals = k.runningTask.signals := by
        simp [pop, runningTask]
      rw [hent]
      simp only [step, hstack, he, resumeFrame, hflags, if_neg hkt] at h
      rcases signalCheck_cases h with ⟨hnone, -⟩ | ⟨cause', f, hfatal, hhalt⟩
      · rw [hsignals, hc] at hnone
        cases hnone
      · rw [hsignals, hc] at hfatal
        obtain rfl := Option.some.inj hfatal
        have hq := k.pop.quiet_modifySignals k.pop.running f
        exact ⟨_, hq, systemHalt_halted hhalt ((hpop.trans hq.toCalm).sound hk).running⟩
  · next status hstack he =>
    split at hc
    · cases hc
    · next hkt =>
      obtain rfl := Option.some.inj hc
      have hent : k.entered l = k.enterSystemCall := by simp [entered, hstack, he]
      rw [hent]
      simp only [step, hstack, he, if_neg hkt, userStep] at h
      exact ⟨_, .refl _, systemHalt_halted h (k.quiet_enterSystemCall.toCalm.sound hk).running⟩
  · split at hc
    · exact absurd (Option.some.inj hc).symm hw
    · cases hc
  · cases hc

/-- **What a child that has ended returns**, at the end of the step that it halts in. -/
theorem Called.halted (hcall : k₀.Called st) (hk₀ : k₀.Sound) {cause : EndCause}
    (hw : cause ≠ .window) (hcause : k₀.halts l = some cause)
    (hp : k₀.runningTask.parent = some p) (hstep : k₀.step img l = .ok k') :
    k'.ExecuteReturns img p cause.status.toInt := by
  obtain ⟨t, ht⟩ := hcall.halting_top hk₀ hcause
  obtain ⟨k₁, hq, h⟩ := step_halts hk₀ hcause hw hstep
  have hcalm := ((k₀.quiet_entered l).trans hq).toCalm
  obtain ⟨hent, hown⟩ := hcall.entered hk₀.running l
  have hent' := (k₀.quiet_entered l).toCalm
  rw [← hent'.running] at hown
  obtain ⟨hcall₁, -⟩ := hq.toCalm.sameCalls.called hent (hent'.sound hk₀).running hown
  refine h.executeReturns hcall₁ (t := t) (by rw [hcalm.running]; exact ht) ?_
  rw [hcalm.running, (hcalm.core k₀.running).parent]
  exact hp

/-- The status of a child is not -1. -/
theorem status_ne {cause : EndCause} (h : ∀ v, cause = .call v → v.toNat < 256) :
    cause.status ≠ -1 := by
  cases cause with
  | call v =>
    intro he
    have hv := h v rfl
    have he' : v = -1 := he
    rw [he'] at hv
    exact absurd hv (by decide)
  | exception => exact (by decide : (256 : BitVec 32) ≠ -1)
  | interrupt => exact (by decide : (15 : BitVec 32) ≠ -1)
  | window => exact (by decide : (255 : BitVec 32) ≠ -1)

/-! ## A step -/

/-- **A task that halts leaves the calls in order.** -/
theorem Halted.called {status : BitVec 32} (h : Halted l.noise status k₁ k')
    (hq : Calm k₀ k₁) (hcall : k₁.Called st) (ht : (st t).head? = some k₁.running)
    (hstatus : k₁.runningTask.parent ≠ none → status ≠ -1)
    (hswitch : Switches k₀ k' → ∀ w, k₀.inExecute k'.running = some w →
      (w = false → l.noise.eax = -1) ∧
        (w = true → l.noise.eax ≠ -1 ∧ ∀ t, k'.running ∉ (st t).tail)) :
    k'.Called (popped st t) ∧ k'.Returned := by
  cases h with
  | toParent p k₂ hp hd h =>
    -- `halt_backtrack`: the parent comes to the top, with the status in EAX
    have hcall₂ := hd.called hcall ht
    obtain ⟨hne, hstack, htop⟩ := hcall.parent ht hp
    have hpstack : k'.runningTask.kstack = executeFrames := by
      rw [runningTask, h.running, h.task, hd.kstack hne, hstack]
    refine ⟨⟨h.stacked hcall₂.stacked, fun y hy => ?_, fun u q hu => ?_⟩,
      fun fs hfs => ?_, fun fs hfs => ?_⟩
    · rw [h.task] at hy ⊢
      exact hcall₂.frames y hy
    · rw [h.running, h.task]
      refine ⟨?_, (hcall₂.waiting u q hu).2⟩
      rintro rfl
      exact hcall₂.stacked.head_not_tail htop u hu
    · rw [h.eax]
      exact hstatus (by rw [runningTask, hp]; simp)
    · rw [hpstack] at hfs
      cases hfs
  | alone k₂ hp hd h hne =>
    -- nobody waits for the task, and the scheduler chooses another one
    refine h.called (hd.called hcall ht) (fun he => ?_) fun hne' w hw => ?_
    · rw [hd.running] at he
      exact absurd he hne
    · obtain ⟨hv, hx⟩ := (hd.valid_iff _).mp (h.switch hne').1
      have hne₀ : k'.running ≠ k₀.running := by rw [← hq.running]; exact hne
      have hsw : Switches k₀ k' := by
        refine ⟨hne₀, (hq.kept.valid _).symm.trans hv, Or.inr ?_⟩
        rw [runningTask, ← (hq.core k₀.running).parent, ← hq.running, hp]
      have hin : k₀.inExecute k'.running = some w := by
        rw [inExecute_eq_some] at hw ⊢
        obtain ⟨fs, hfs⟩ := hw
        exact ⟨fs, by rw [← hfs, hd.kstack hx, hq.kstack _ hne₀]⟩
      obtain ⟨hno, hyes⟩ := hswitch hsw w hin
      refine ⟨hno, fun hw' => ⟨(hyes hw').1, fun u hu => ?_⟩⟩
      obtain ⟨v, hv'⟩ := mem_popped_tail hu
      exact (hyes hw').2 v hv'

/-- The entry code of the `execute` system call. -/
theorem entered_executes {a : ExecuteArgs} (h : k.executes l = some a) (hw : a.wait = 1) :
    ((k.entered l).task (k.entered l).running).kstack = [.syscallDone, .signalCheck] := by
  unfold executes at h
  split at h
  · next command hstack he =>
    have hent : k.entered l = k.enterSystemCall := by simp [entered, hstack, he]
    have hstack' : (k.task k.running).kstack = [] := hstack
    rw [hent]
    simp [enterSystemCall, push, hstack']
  · split at h
    · cases h
      exact absurd hw (by decide)
    · cases h
  · cases h

/-- **Every step that meets the condition keeps the stacks of the tasks**, and what the top call
returns is as the contract says. -/
theorem Outcome.called (h : Outcome img k₀ l (k₀.entered l) k') (hk₀ : k₀.Sound)
    (hcall : k₀.Called st) (hc : KeepsReturns img k₀ l) (hstep : k₀.step img l = .ok k') :
    ∃ st', k'.Called st' ∧ k'.Returned := by
  have hent := (k₀.quiet_entered l).toCalm
  have hk := hent.sound hk₀
  obtain ⟨hcall₀, hown₀⟩ := hcall.entered hk₀.running l
  rw [← hent.running] at hown₀
  have same : SameCalls (k₀.entered l) k' → ∃ st', k'.Called st' ∧ k'.Returned := by
    intro h
    obtain ⟨hcall', hown'⟩ := h.called hcall₀ hk.running hown₀
    refine ⟨st, hcall', returned_of_launchFree ?_⟩
    rw [runningTask, h.running]
    exact hown'
  have scheduled : ∀ {k₁}, SameCalls (k₀.entered l) k₁ → Scheduled l.noise k₁ k' →
      ∃ st', k'.Called st' ∧ k'.Returned :=
    fun h hsched => ⟨st, h.scheduled hsched hk₀ hcall hc hstep⟩
  have mid : ∀ {k₁}, Calm (k₀.entered l) k₁ → k₁.Called st ∧
      LaunchFree (k₁.task k₁.running).kstack := by
    intro k₁ h
    obtain ⟨hcall₁, hown₁⟩ := h.sameCalls.called hcall₀ hk.running hown₀
    rw [← h.running] at hown₁
    exact ⟨hcall₁, hown₁⟩
  cases h with
  | quiet h => exact same h.toCalm.sameCalls
  | vidmap t ht h =>
    refine same ?_
    rw [h]
    exact (sameCalls_vidmapped _ t).trans (quiet_ret _ _).toCalm.sameCalls
  | lineRead h => exact same h.toCalm.sameCalls
  | readWaits nbytes term hb he hu h =>
    have hshape := readBegin_shape ((k₀.entered l).term (k₀.entered l).runningTask.terminal) nbytes
    rw [hb] at hshape
    have hcalm := (k₀.entered l).calm_modifyTerm (k₀.entered l).runningTask.terminal hshape
    exact scheduled (hcalm.sameCalls.trans (sameCalls_asleep _ _ (readerTask_held nbytes)
      fun _ hf => hf.cons rfl)) h
  | rtcWaits counter hu h =>
    exact scheduled (sameCalls_asleep _ _ (rtcTask_held counter) fun _ hf => hf.cons rfl) h
  | yields k₁ hq h =>
    exact scheduled (hq.toCalm.sameCalls.trans (k₁.kept_schedMoveRunningToLast.sameCalls
      fun y _ => by rw [schedMoveRunningToLast_task])) h
  | rtc k₁ wakeCount hl he h =>
    have hsame := (rtcLoop_kept hl).sameCalls fun y _ => (rtcLoop_reads hl).2 y
    rcases h with ⟨-, rfl⟩ | ⟨-, h⟩
    · exact same hsame
    · exact scheduled hsame h
  | key k₁ f kb kb' code term effect hf hp he h hw =>
    have hfocus := kept_keyFocus hf effect
    have hsame := (hfocus.sameCalls fun _ _ => rfl).trans h.calm.sameCalls
    rcases hw with ⟨-, rfl⟩ | ⟨-, -, hsched⟩
    · exact same hsame
    · refine scheduled (hsame.trans ((k₁.kept_keyWoken _).sameCalls fun y _ => ?_)) hsched
      show (Function.update k₁.task _ _ y).kstack = _
      by_cases hy : y = (k₀.entered l).keyTarget f effect
      · rw [hy, Function.update_self]
      · rw [Function.update_of_ne hy]
  | raised g f hg hf h =>
    exact same ((((k₀.entered l).kept_raised (focus_of_raised hf) hg).sameCalls
      fun _ _ => rfl).trans h.toCalm.sameCalls)
  | refused k₁ k₂ hq h hq' =>
    have hsame := h.kept.sameCalls fun y hy => by rw [h.task y hy]
    exact same (hq.toCalm.sameCalls.trans (hsame.trans hq'.toCalm.sameCalls))
  | launched k₁ a x ha hq hw hl h =>
    have hu : k₁.UserCall a :=
      ((hent.kept.trans hq.kept).userCall hk₀.running).mpr (userCall_of_executes ha)
    obtain ⟨hcall₁, hown₁⟩ := mid hq.toCalm
    refine ⟨_, h.called hcall₁ (hq.toCalm.sound hk) hu hown₁ fun hwait => ?_⟩
    rw [hw hwait]
    exact entered_executes ha hwait
  | halted k₁ cause hcause hq h =>
    obtain ⟨t, ht⟩ := hcall.halting_top hk₀ hcause
    have hcalm := hent.trans hq.toCalm
    refine ⟨_, h.called hcalm (mid hq.toCalm).1 (t := t) (by rw [hcalm.running]; exact ht)
      (fun hp => status_ne fun v hv => ?_) fun hsw w hw => hc.switch hcall.stacked hstep hsw w hw⟩
    have hparent : k₀.runningTask.parent ≠ none := by
      rw [runningTask, hcalm.running, (hcalm.core k₀.running).parent] at hp
      exact hp
    refine hc.1 v.toNat ?_ hparent
    rw [haltCall, hcause, hv]
    rfl
  | closed k₁ x hclose hq h =>
    obtain ⟨t, ht⟩ := closes_fg hclose
    rw [hcall.stacked.fg] at ht
    obtain ⟨hcall₁, hown₁⟩ := mid hq.toCalm
    have hne : k₁.running ≠ x := by
      rw [hq.running, hent.running]
      exact (closes_ne_running hclose).symm
    refine ⟨_, h.called hcall₁ ht, returned_of_launchFree ?_⟩
    rw [runningTask, h.running, h.kstack hne]
    exact hown₁

/-! ## Runs -/

theorem start_called : ∃ st, start.Called st := by
  obtain ⟨st, place, hs, -⟩ := start_inOrder
  refine ⟨st, hs.stacked, fun x _ => ?_, fun t p hp => ?_⟩
  · have htail : ∀ x, (start.task x).kstack.tail = [] := by decide +kernel
    rw [htail]
    exact launchFree_nil
  · have hnone : ∀ x, (start.task x).terminal = none := by decide +kernel
    have hterm := ((hs.stacked.member t p).mp (List.mem_of_mem_tail hp)).2
    rw [hnone] at hterm
    cases hterm

/-- A small status is returned as it is. -/
theorem toInt_of_lt {v : BitVec 32} (h : v.toNat < 256) : v.toInt = (v.toNat % 256 : ℕ) := by
  rw [BitVec.toInt_eq_toNat_of_lt (by omega), Nat.mod_eq_of_lt h]

/-- An event with -1 in EAX behind a switch. -/
def restored (e : Event) : Label := { event := e, noise := { eax := -1, stack := fun _ => 0 } }

/-- The shell starts `cat`. -/
def catStarts : List Label :=
  (firstTick ++ openShell ++ [Event.execute catCommand]).map restored

end Kernel

end AuroraOS
