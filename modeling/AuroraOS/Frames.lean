/-
# What the parts of a step leave alone

Most of what the kernel does in one step concerns the running task only: its kernel
stack, its files, its signals.  `Quiet` says that two kernels agree on everything that
ties the tasks together.  The parts of a step that are not quiet get a description of
their own: the choice of the next task (`Scheduled`), and the end of a task
(`TornDown`).
-/
import AuroraOS.Execute
import AuroraOS.System

namespace AuroraOS

open Ring Machine

/-! ## Quiet changes -/

/-- The fields of a task that say where it belongs are the same. -/
structure Task.SameCore (t t' : Task) : Prop where
  valid : t'.valid = t.valid
  flags : t'.flags = t.flags
  parent : t'.parent = t.parent
  pageId : t'.pageId = t.pageId
  vidmapEnabled : t'.vidmapEnabled = t.vidmapEnabled
  terminal : t'.terminal = t.terminal

theorem Task.SameCore.refl (t : Task) : t.SameCore t := ⟨rfl, rfl, rfl, rfl, rfl, rfl⟩

theorem Task.SameCore.trans {t t' t'' : Task} (h : t.SameCore t') (h' : t'.SameCore t'') :
    t.SameCore t'' :=
  ⟨h'.valid.trans h.valid, h'.flags.trans h.flags, h'.parent.trans h.parent,
    h'.pageId.trans h.pageId, h'.vidmapEnabled.trans h.vidmapEnabled,
    h'.terminal.trans h.terminal⟩

/-- The frame of a caller of `system_execute`. -/
def Frame.isLaunch : Frame → Bool
  | .executeLaunch _ => true
  | _ => false

/-- No call of `system_execute` is left on a kernel stack. -/
def LaunchFree (fs : List Frame) : Prop := ∀ f ∈ fs, f.isLaunch = false

theorem launchFree_nil : LaunchFree [] := fun f hf => by cases hf

theorem LaunchFree.cons {f : Frame} {fs : List Frame} (h : LaunchFree fs)
    (hf : f.isLaunch = false) :
    LaunchFree (f :: fs) := by
  intro g hg
  rcases List.mem_cons.mp hg with rfl | hg
  · exact hf
  · exact h g hg

theorem LaunchFree.tail {fs : List Frame} (h : LaunchFree fs) : LaunchFree fs.tail :=
  fun f hf => h f (List.mem_of_mem_tail hf)

/-- The terminal and its window are as valid as before. -/
structure Terminal.SameShape (t t' : Terminal) : Prop where
  valid : t'.valid = t.valid
  terminalId : t'.win.terminalId = t.win.terminalId

/-- Nobody has typed on the terminal or read from it. -/
structure Terminal.SameLine (t t' : Terminal) : Prop where
  keyBuf : t'.keyBuf = t.keyBuf
  keyBufCnt : t'.keyBufCnt = t.keyBufCnt
  userAskLen : t'.userAskLen = t.userAskLen

namespace Kernel

/-- The tasks, the lists and the terminals are where they were; the lines of the
terminals may differ, and what is the own business of the running task. -/
structure Calm (k k' : Kernel) : Prop where
  running : k'.running = k.running
  taskCount : k'.taskCount = k.taskCount
  links : k'.links = k.links
  terminalFgTask : k'.terminalFgTask = k.terminalFgTask
  focusTask : k'.focusTask = k.focusTask
  paging : k'.paging = k.paging
  vidmapEntry : k'.vidmem.vidmapEntry = k.vidmem.vidmapEntry
  opened : k'.vidmem.terminalOpened = k.vidmem.terminalOpened
  windowStack : k'.gui.windowStack = k.gui.windowStack
  core : ∀ x, (k.task x).SameCore (k'.task x)
  kstack : ∀ x, x ≠ k.running → (k'.task x).kstack = (k.task x).kstack
  calls : LaunchFree (k.task k.running).kstack → LaunchFree (k'.task k.running).kstack
  term : ∀ t, (k.term t).SameShape (k'.term t)

/-- **A quiet change**: the lines of the terminals are the same, too. -/
structure Quiet (k k' : Kernel) : Prop extends Calm k k' where
  line : ∀ t, (k.term t).SameLine (k'.term t)

variable {k k' k'' : Kernel} {x : TaskId}

theorem Calm.trans (h : Calm k k') (h' : Calm k' k'') : Calm k k'' where
  running := h'.running.trans h.running
  taskCount := h'.taskCount.trans h.taskCount
  links := h'.links.trans h.links
  terminalFgTask := h'.terminalFgTask.trans h.terminalFgTask
  focusTask := h'.focusTask.trans h.focusTask
  paging := h'.paging.trans h.paging
  vidmapEntry := h'.vidmapEntry.trans h.vidmapEntry
  opened := h'.opened.trans h.opened
  windowStack := h'.windowStack.trans h.windowStack
  core := fun x => (h.core x).trans (h'.core x)
  kstack := fun x hx => (h'.kstack x (h.running ▸ hx)).trans (h.kstack x hx)
  calls := fun hc => by
    have := h'.calls (h.running ▸ h.calls hc)
    rwa [h.running] at this
  term := fun t => ⟨(h'.term t).valid.trans (h.term t).valid,
    (h'.term t).terminalId.trans (h.term t).terminalId⟩

theorem Quiet.refl (k : Kernel) : Quiet k k :=
  ⟨⟨rfl, rfl, rfl, rfl, rfl, rfl, rfl, rfl, rfl, fun _ => .refl _, fun _ _ => rfl, id,
    fun _ => ⟨rfl, rfl⟩⟩, fun _ => ⟨rfl, rfl, rfl⟩⟩

theorem Quiet.trans (h : Quiet k k') (h' : Quiet k' k'') : Quiet k k'' :=
  ⟨h.toCalm.trans h'.toCalm, fun t => ⟨(h'.line t).keyBuf.trans (h.line t).keyBuf,
    (h'.line t).keyBufCnt.trans (h.line t).keyBufCnt,
    (h'.line t).userAskLen.trans (h.line t).userAskLen⟩⟩

/-! ## The quiet operations -/

theorem quiet_modifyTask (k : Kernel) (x : TaskId) {f : Task → Task}
    (hf : ∀ t : Task, t.SameCore (f t) ∧ (f t).kstack = t.kstack) : Quiet k (k.modifyTask x f) := by
  have htask : ∀ y, (k.task y).SameCore ((k.modifyTask x f).task y) ∧
      ((k.modifyTask x f).task y).kstack = (k.task y).kstack := by
    intro y
    by_cases hy : y = x
    · subst hy
      simpa using hf (k.task y)
    · simpa [Function.update_of_ne hy] using Task.SameCore.refl (k.task y)
  exact ⟨⟨rfl, rfl, rfl, rfl, rfl, rfl, rfl, rfl, rfl, fun y => (htask y).1, fun y _ => (htask y).2,
    fun h => by rwa [(htask _).2], fun _ => ⟨rfl, rfl⟩⟩, fun _ => ⟨rfl, rfl, rfl⟩⟩

/-- The running task may also push frames, and leave them. -/
theorem quiet_modifyRunning (k : Kernel) {f : Task → Task}
    (hf : ∀ t : Task, t.SameCore (f t) ∧ (LaunchFree t.kstack → LaunchFree (f t).kstack)) :
    Quiet k (k.modifyTask k.running f) := by
  refine ⟨⟨rfl, rfl, rfl, rfl, rfl, rfl, rfl, rfl, rfl, fun y => ?_, fun y hy => ?_, fun h => ?_,
    fun _ => ⟨rfl, rfl⟩⟩, fun _ => ⟨rfl, rfl, rfl⟩⟩
  · by_cases hy : y = k.running
    · rw [hy, modifyTask_task, Function.update_self]
      exact (hf _).1
    · simpa [Function.update_of_ne hy] using Task.SameCore.refl (k.task y)
  · simp [Function.update_of_ne hy]
  · rw [modifyTask_task, Function.update_self]
    exact (hf _).2 h

theorem quiet_push (k : Kernel) {f : Frame} (hf : f.isLaunch = false) : Quiet k (k.push f) :=
  k.quiet_modifyRunning fun _ => ⟨⟨rfl, rfl, rfl, rfl, rfl, rfl⟩, fun h => h.cons hf⟩

theorem quiet_pop (k : Kernel) : Quiet k k.pop :=
  k.quiet_modifyRunning fun _ => ⟨⟨rfl, rfl, rfl, rfl, rfl, rfl⟩, fun h => h.tail⟩

theorem quiet_modifySignals (k : Kernel) (x : TaskId) (f : SignalStruct → SignalStruct) :
    Quiet k (k.modifySignals x f) :=
  k.quiet_modifyTask x fun _ => ⟨⟨rfl, rfl, rfl, rfl, rfl, rfl⟩, rfl⟩

theorem quiet_schedRefillTime (k : Kernel) (x : TaskId) : Quiet k (k.schedRefillTime x) :=
  k.quiet_modifyTask x fun _ => ⟨⟨rfl, rfl, rfl, rfl, rfl, rfl⟩, rfl⟩

theorem quiet_mapped (k : Kernel) (v : Pde4kB) (r : Option TermId) : Quiet k (k.mapped v r) :=
  ⟨⟨rfl, rfl, rfl, rfl, rfl, rfl, rfl, rfl, rfl, fun _ => .refl _, fun _ _ => rfl, id,
    fun _ => ⟨rfl, rfl⟩⟩, fun _ => ⟨rfl, rfl, rfl⟩⟩

theorem quiet_eax (k : Kernel) (e : BitVec 32) : Quiet k { k with eax := e } :=
  ⟨⟨rfl, rfl, rfl, rfl, rfl, rfl, rfl, rfl, rfl, fun _ => .refl _, fun _ _ => rfl, id,
    fun _ => ⟨rfl, rfl⟩⟩, fun _ => ⟨rfl, rfl, rfl⟩⟩

theorem quiet_ret (k : Kernel) (value : ℤ) : Quiet k (k.ret value) := k.quiet_eax _

/-- The devices are nobody's business, as long as the window stack is the same. -/
theorem quiet_devices (k : Kernel) (g : Gui) (kb : Keyboard) (m : Mouse)
    (hg : g.windowStack = k.gui.windowStack) :
    Quiet k { k with gui := g, keyboard := kb, mouse := m } :=
  ⟨⟨rfl, rfl, rfl, rfl, rfl, rfl, rfl, rfl, hg, fun _ => .refl _, fun _ _ => rfl, id,
    fun _ => ⟨rfl, rfl⟩⟩, fun _ => ⟨rfl, rfl, rfl⟩⟩

theorem quiet_modifyTerm (k : Kernel) (t : Option TermId) {f : Terminal → Terminal}
    (hf : (k.term t).SameShape (f (k.term t)) ∧ (k.term t).SameLine (f (k.term t))) :
    Quiet k (k.modifyTerm t f) := by
  have hterm : ∀ u, (k.term u).SameShape ((k.modifyTerm t f).term u) ∧
      (k.term u).SameLine ((k.modifyTerm t f).term u) := by
    intro u
    by_cases hu : u = t
    · subst hu
      simpa using hf
    · simp only [modifyTerm_term, Function.update_of_ne hu]
      exact ⟨⟨rfl, rfl⟩, ⟨rfl, rfl, rfl⟩⟩
  exact ⟨⟨rfl, rfl, rfl, rfl, rfl, rfl, rfl, rfl, rfl, fun _ => .refl _, fun _ _ => rfl, id,
    fun u => (hterm u).1⟩, fun u => (hterm u).2⟩

/-- The line of one terminal may change. -/
theorem calm_modifyTerm (k : Kernel) (t : Option TermId) {term : Terminal}
    (h : (k.term t).SameShape term) : Calm k (k.modifyTerm t fun _ => term) := by
  refine ⟨rfl, rfl, rfl, rfl, rfl, rfl, rfl, rfl, rfl, fun _ => .refl _, fun _ _ => rfl, id,
    fun u => ?_⟩
  by_cases hu : u = t
  · subst hu
    simpa using h
  · simp only [modifyTerm_term, Function.update_of_ne hu]
    exact ⟨rfl, rfl⟩

theorem quiet_terminalSetRunning (k : Kernel) (t : Option TermId) :
    Quiet k (k.terminalSetRunning t) := by
  obtain ⟨v, r, h⟩ := k.terminalSetRunning_eq t
  rw [h]
  exact k.quiet_mapped v r

theorem quiet_terminalFocusPrintf (k : Kernel) : Quiet k k.terminalFocusPrintf := by
  obtain ⟨v, r, h⟩ := k.terminalFocusPrintf_eq
  rw [h]
  exact k.quiet_mapped v r

theorem quiet_guiRender (k : Kernel) : Quiet k k.guiRender := by
  have hset : ∀ (v : Vidmem) t, ∃ e, v.terminalVidmemSet t = { v with vramEntry := e } := by
    intro v t
    unfold Vidmem.terminalVidmemSet
    cases t with
    | none => exact ⟨_, rfl⟩
    | some i =>
      by_cases ho : v.terminalOpened i
      · exact ⟨setPDE4kB (.kernelVideoMemory i) true false true, by simp [ho]⟩
      · exact ⟨v.vramEntry, by simp [ho]⟩
  obtain ⟨e, he⟩ := hset k.vidmem none
  obtain ⟨e', he'⟩ := hset { k.vidmem with vramEntry := e } k.runningTerm
  have hk : k.guiRender = k.mapped e' k.runningTerm := by
    unfold guiRender
    rw [he, he']
    rfl
  rw [hk]
  exact k.quiet_mapped _ _

theorem quiet_enterInterrupt (k : Kernel) : Quiet k k.enterInterrupt := k.quiet_push rfl

theorem quiet_enterSystemCall (k : Kernel) : Quiet k k.enterSystemCall :=
  (k.quiet_push rfl).trans (quiet_push _ rfl)

theorem quiet_signalSend (k : Kernel) (signal : ℕ) : Quiet k (k.signalSend signal) := by
  unfold signalSend
  split
  · cases k.focusTask with
    | none => exact .refl k
    | some f => exact k.quiet_modifySignals f _
  · exact k.quiet_modifySignals _ _

theorem quiet_pitRender (k : Kernel) : Quiet k k.pitRender := by
  have hcount : Quiet k { k with gui := { k.gui with renderCounter := k.gui.renderCounter + 1 } } :=
    k.quiet_devices _ k.keyboard k.mouse rfl
  unfold pitRender
  simp only
  split
  · exact (hcount.trans (quiet_guiRender _)).trans (quiet_devices _ _ _ _ rfl)
  · exact hcount

theorem quiet_pitAlarm (k : Kernel) : Quiet k k.pitAlarm := by
  unfold pitAlarm
  cases k.focusTask with
  | none => exact .refl k
  | some f =>
    simp only
    split
    · exact ((k.quiet_modifySignals f _).trans (quiet_signalSend _ _)).trans
        (quiet_modifySignals _ f _)
    · exact k.quiet_modifySignals f _

theorem quiet_guiHandleMouseMove (k : Kernel) (dx dy : ℤ) :
    Quiet k (k.guiHandleMouseMove dx dy).1 := by
  unfold guiHandleMouseMove
  split
  · exact .refl k
  · cases k.gui.windowStack.headD none with
    | none => exact .refl k
    | some t =>
      simp only [apply_ite Prod.fst]
      split
      · apply quiet_modifyTerm k (some t)
        exact ⟨⟨rfl, rfl⟩, ⟨rfl, rfl, rfl⟩⟩
      · exact .refl k

theorem quiet_mouseTail (k : Kernel) (flags dx dy : UInt8) : Quiet k (k.mouseTail flags dx dy) :=
  (k.quiet_guiHandleMouseMove _ _).trans (quiet_devices _ _ _ _ rfl)

/-! ## The choice of the next task -/

/-- The user mapping of video memory that a task asks for. -/
def vidmapView (k : Kernel) (x : TaskId) : Pde4kB :=
  match (k.task x).terminal with
  | some t => if (k.task x).vidmapEnabled then setPDE4kB (.userVideoMemory t) true true true
    else clearPDE4kB
  | none => if (k.task x).vidmapEnabled then k.vidmem.vidmapEntry else clearPDE4kB

/-- The idle task, at the head of the run queue but not alone, goes to its end. -/
def Rotated (k : Kernel) (l : Links ListNode) : Prop :=
  ∃ z, (k.task z).flags.idleTask = true ∧ k.links.next (.head .runQueue) = .item z ∧
    k.links.next (.item z) ≠ .head .runQueue ∧
    l = k.links.move (.item z) (k.links.prev (.head .runQueue))
      (k.links.next (k.links.prev (.head .runQueue)))

/-- **The scheduler has chosen the head of the run queue.** -/
structure Scheduled (noise : Noise) (k k' : Kernel) : Prop where
  task : k'.task = k.task
  taskCount : k'.taskCount = k.taskCount
  terminalFgTask : k'.terminalFgTask = k.terminalFgTask
  focusTask : k'.focusTask = k.focusTask
  term : k'.term = k.term
  gui : k'.gui = k.gui
  opened : k'.vidmem.terminalOpened = k.vidmem.terminalOpened
  pageIdRunning : k'.paging.pageIdRunning = k.paging.pageIdRunning
  pageIdCount : k'.paging.pageIdCount = k.paging.pageIdCount
  links : k'.links = k.links ∨ k.Rotated k'.links
  head : k.links.next (.head .runQueue) = .head .runQueue ∧ k'.running = k.running ∨
    k'.links.next (.head .runQueue) = .item k'.running
  stay : k'.running = k.running →
    k'.eax = k.eax ∧ k'.paging = k.paging ∧ k'.vidmem.vidmapEntry = k.vidmem.vidmapEntry
  switch : k'.running ≠ k.running → (k.task k'.running).valid = true ∧ k'.eax = noise.eax ∧
    k'.vidmem.vidmapEntry = k.vidmapView k'.running ∧
    ((k.task k'.running).pageId = -1 ∧ k'.paging = k.paging ∨ (k.task k'.running).pageId ≠ -1 ∧
      k.paging.taskPagingSet (k.task k'.running).pageId = .ok k'.paging)

theorem taskPagingSet_ids {p p' : Paging} {i : ℤ} (h : p.taskPagingSet i = .ok p') :
    p'.pageIdRunning = p.pageIdRunning ∧ p'.pageIdCount = p.pageIdCount := by
  unfold Paging.taskPagingSet at h
  split at h
  · cases h
    exact ⟨rfl, rfl⟩
  · obtain ⟨j, -, hj⟩ := bind_eq_ok.mp h
    split at hj <;> cases hj <;> exact ⟨rfl, rfl⟩

theorem launchTo_eq {k k' : Kernel} {toRun : TaskId} {noise : Noise}
    (h : k.launchTo toRun noise = .ok k') :
    k' = k ∧ k.running = toRun ∨ k.running ≠ toRun ∧ (k.task toRun).valid = true ∧
      ∃ v r p, k' = { k.mapped v r with
          running := toRun
          eax := noise.eax
          paging := p
          vidmem := { k.vidmem with vramEntry := v, vidmapEntry := k.vidmapView toRun } } ∧
        ((k.task toRun).pageId = -1 ∧ p = k.paging ∨ (k.task toRun).pageId ≠ -1 ∧
          k.paging.taskPagingSet (k.task toRun).pageId = .ok p) := by
  unfold launchTo at h
  by_cases hr : k.running = toRun
  · rw [if_pos hr] at h
    cases h
    exact Or.inl ⟨rfl, hr⟩
  rw [if_neg hr] at h
  obtain ⟨v, r, hv⟩ := k.terminalSetRunning_eq (k.task toRun).terminal
  simp only [hv] at h
  obtain ⟨k₁, hpage, hswitch⟩ := bind_eq_ok.mp h
  have hp : ∃ p, k₁ = { k.mapped v r with paging := p } ∧
      ((k.task toRun).pageId = -1 ∧ p = k.paging ∨ (k.task toRun).pageId ≠ -1 ∧
        k.paging.taskPagingSet (k.task toRun).pageId = .ok p) := by
    unfold setTaskPage at hpage
    split at hpage
    · next hne =>
      obtain ⟨p, hset, hk⟩ := bind_eq_ok.mp hpage
      cases hk
      exact ⟨p, rfl, Or.inr ⟨hne, hset⟩⟩
    · next heq =>
      cases hpage
      exact ⟨k.paging, rfl, Or.inl ⟨not_not.mp heq, rfl⟩⟩
  obtain ⟨p, rfl, hp⟩ := hp
  have hview : taskApplyUserVidmap { k.mapped v r with paging := p } toRun
      = { k.mapped v r with
          paging := p
          vidmem := { k.vidmem with vramEntry := v, vidmapEntry := k.vidmapView toRun } } := by
    unfold taskApplyUserVidmap vidmapView Vidmem.taskSetUserVidmap mapped
    cases (k.task toRun).terminal <;> cases (k.task toRun).vidmapEnabled <;> rfl
  rw [hview] at hswitch
  unfold switchTo at hswitch
  split at hswitch
  · next hvalid =>
    cases hswitch
    exact Or.inr ⟨hr, hvalid, v, r, p, rfl, hp⟩
  · cases hswitch

theorem launchTo_scheduled {k k' : Kernel} {toRun : TaskId} {noise : Noise}
    (h : k.launchTo toRun noise = .ok k') (hhead : k.links.next (.head .runQueue) = .item toRun) :
    Scheduled noise k k' := by
  rcases launchTo_eq h with ⟨rfl, hr⟩ | ⟨hr, hvalid, v, r, p, rfl, hp⟩
  · constructor
    case head => exact Or.inr (by rw [hhead, hr])
    case links => exact Or.inl rfl
    all_goals simp
  · have hids : p.pageIdRunning = k.paging.pageIdRunning ∧
        p.pageIdCount = k.paging.pageIdCount := by
      rcases hp with ⟨-, rfl⟩ | ⟨-, hset⟩
      · exact ⟨rfl, rfl⟩
      · exact taskPagingSet_ids hset
    constructor
    case head => exact Or.inr hhead
    case links => exact Or.inl rfl
    case stay => exact fun he => absurd he.symm hr
    case switch => exact fun _ => ⟨hvalid, rfl, rfl, hp⟩
    case pageIdRunning => exact hids.1
    case pageIdCount => exact hids.2
    all_goals rfl

theorem taskFromNode_eq {n : ListNode} {x : TaskId} (h : taskFromNode n = .ok x) : n = .item x := by
  cases n with
  | head s => cases h
  | item y => cases h; rfl

theorem schedLaunch_scheduled {k k' : Kernel} {noise : Noise}
    (h : k.schedLaunchToCurrentHead noise = .ok k') : Scheduled noise k k' := by
  unfold schedLaunchToCurrentHead at h
  by_cases hempty : k.links.next (.head .runQueue) = .head .runQueue
  · rw [if_pos hempty] at h
    cases h
    constructor
    case head => exact Or.inl ⟨hempty, rfl⟩
    case links => exact Or.inl rfl
    all_goals simp
  rw [if_neg hempty] at h
  obtain ⟨toRun, hnode, h⟩ := bind_eq_ok.mp h
  have hhead := taskFromNode_eq hnode
  by_cases hidle : (k.task toRun).flags.idleTask = true ∧
      k.links.next (.item toRun) ≠ .head .runQueue
  · rw [if_pos hidle] at h
    obtain ⟨toRun', hnode', h⟩ := bind_eq_ok.mp h
    have hs := launchTo_scheduled h (taskFromNode_eq hnode')
    have hlinks : k'.links = k.links.move (.item toRun) (k.links.prev (.head .runQueue))
        (k.links.next (k.links.prev (.head .runQueue))) := by
      rcases launchTo_eq h with ⟨rfl, -⟩ | ⟨-, -, v, r, p, rfl, -⟩ <;> rfl
    have hhead' : k'.links.next (.head .runQueue) = .item k'.running := by
      rcases launchTo_eq h with ⟨rfl, hr⟩ | ⟨-, -, v, r, p, rfl, -⟩
      · rw [taskFromNode_eq hnode', hr]
      · exact taskFromNode_eq hnode'
    exact { hs with
      links := Or.inr ⟨toRun, hidle.1, hhead, hidle.2, hlinks⟩
      head := Or.inr hhead' }
  · rw [if_neg hidle] at h
    exact launchTo_scheduled h hhead

/-! ## The end of a task -/

/-- A parent whose child has ended. -/
def wokenTask (t : Task) : Task :=
  { t with flags := { t.flags with waitingChild := false }, remainTime := schedTaskTime }

/-- The lists without the task `x`, whose parent is `p`. -/
def tornLinks (l : Links ListNode) (x : TaskId) (p : Option TaskId) : Links ListNode :=
  let l := l.reset (.head .tempList)
  let l := l.move (.item x) (.head .tempList) (l.next (.head .tempList))
  let l := match p with
    | none => l
    | some p => l.move (.item p) (.head .runQueue) (l.next (.head .runQueue))
  l.reset (.head .tempList)

/-- The focus when the terminal `t` is gone: it moves if it was there. -/
def FocusWithout (k : Kernel) (t : TermId) (f : Option TaskId) : Prop :=
  ∃ y, k.focusTask = some y ∧ f = if (k.task y).terminal = some t then
    (k.getAnotherTermId t).bind k.terminalFgTask else some y

/-- **What `tear_down_task` does** to a valid task. -/
structure TornDown (x : TaskId) (k k' : Kernel) : Prop where
  valid : (k.task x).valid = true
  running : k'.running = k.running
  eax : k'.eax = k.eax
  taskCount : k'.taskCount = (k.taskCount + (2 ^ 32 - 1)) % 2 ^ 32
  dead : (k'.task x).valid = false
  pageId : (k'.task x).pageId = (k.task x).pageId
  parent : ∀ p, p ≠ x → (k.task x).parent = some p → k'.task p = wokenTask (k.task p)
  other : ∀ y, y ≠ x → (k.task x).parent ≠ some y → k'.task y = k.task y
  links : k'.links = tornLinks k.links x (k.task x).parent
  paging : k'.paging = k.paging
  vidmapEntry : k'.vidmem.vidmapEntry = k.vidmem.vidmapEntry
  owned : (k.task x).flags.terminalOwner = true → ∃ t, (k.task x).terminal = some t ∧
    k'.terminalFgTask = Function.update k.terminalFgTask t none ∧ k.FocusWithout t k'.focusTask ∧
    k'.term = Function.update k.term (some t) { k.term (some t) with valid := false } ∧
    k'.vidmem.terminalOpened = Function.update k.vidmem.terminalOpened t false ∧
    k'.gui = k.gui.destroyWindow t
  shared : (k.task x).flags.terminalOwner = false → k'.term = k.term ∧
    k'.vidmem.terminalOpened = k.vidmem.terminalOpened ∧ k'.gui = k.gui ∧
    ((k.task x).parent = none ∧ k'.terminalFgTask = k.terminalFgTask ∧ k'.focusTask = k.focusTask ∨
      ∃ p t y, (k.task x).parent = some p ∧ (k.task p).terminal = some t ∧
        k'.terminalFgTask = Function.update k.terminalFgTask t (some p) ∧ k.focusTask = some y ∧
        k'.focusTask = if (k.task y).terminal = some t then some p else some y)

theorem wakeParent_eq (k : Kernel) (p : TaskId) : k.wakeParent p
    = { k.modifyTask p wokenTask with
        links := k.links.move (.item p) (.head .runQueue) (k.links.next (.head .runQueue)) } := by
  simp [wakeParent, schedRefillTime, schedInsertToHead, moveTaskAfterNode, moveTaskToList]
  rfl

/-- The task `x` is on `temp_list`. -/
def unlisted (k : Kernel) (x : TaskId) : Kernel :=
  moveTaskAfterNode { k with links := k.links.reset (.head .tempList) } x (.head .tempList)

/-- What `tear_down_task` reads of a task. -/
structure SameRole (t t' : Task) : Prop where
  terminal : t'.terminal = t.terminal
  pageId : t'.pageId = t.pageId
  parent : t'.parent = t.parent
  owner : t'.flags.terminalOwner = t.flags.terminalOwner

/-- Phases 1 and 2 of `tear_down_task` update the task and its parent. -/
theorem tearDownLists_eq (k : Kernel) (x : TaskId) :
    ∃ τ l, k.tearDownLists x = { k with task := τ, links := l } ∧
      l.reset (.head .tempList) = tornLinks k.links x (k.task x).parent ∧
      (∀ y, SameRole (k.task y) (τ y)) ∧
      (∀ p, p ≠ x → (k.task x).parent = some p → τ p = wokenTask (k.task p)) ∧
      ∀ y, y ≠ x → (k.task x).parent ≠ some y → τ y = k.task y := by
  have hclear : ∀ τ : TaskId → Task, ∃ τ', (∀ m : Kernel, m.task = τ → m.running = k.running →
      (if x = m.running then
        m.modifyTask x fun t => { t with fileArray := t.fileArray.clear } else m)
        = { m with task := τ' }) ∧ SameRole (τ x) (τ' x) ∧ ∀ y, y ≠ x → τ' y = τ y := by
    intro τ
    by_cases hx : x = k.running
    · refine ⟨Function.update τ x { τ x with fileArray := (τ x).fileArray.clear }, ?_, ?_, ?_⟩
      · rintro m rfl hr
        rw [if_pos (hr ▸ hx)]
        rfl
      · rw [Function.update_self]
        exact ⟨rfl, rfl, rfl, rfl⟩
      · exact fun y hy => Function.update_of_ne hy _ _
    · refine ⟨τ, ?_, ⟨rfl, rfl, rfl, rfl⟩, fun _ _ => rfl⟩
      rintro m rfl hr
      rw [if_neg (hr ▸ hx)]
  have hdef : k.tearDownLists x = (fun m : Kernel => if x = m.running then
      m.modifyTask x fun t => { t with fileArray := t.fileArray.clear } else m)
        (match (k.task x).parent with
          | none => k.unlisted x
          | some p => (k.unlisted x).wakeParent p) := rfl
  rw [hdef]
  unfold tornLinks
  cases hp : (k.task x).parent with
  | none =>
    obtain ⟨τ, hτ, hself, hother⟩ := hclear k.task
    refine ⟨τ, _, hτ _ rfl rfl, rfl, fun y => ?_, by simp, fun y hy _ => hother y hy⟩
    by_cases hy : y = x
    · exact hy ▸ hself
    · rw [hother y hy]
      exact ⟨rfl, rfl, rfl, rfl⟩
  | some p =>
    obtain ⟨τ, hτ, hself, hother⟩ := hclear (Function.update k.task p (wokenTask (k.task p)))
    have hwoken : ∀ y, SameRole (k.task y) (Function.update k.task p (wokenTask (k.task p)) y) := by
      intro y
      by_cases hy : y = p
      · subst hy
        rw [Function.update_self]
        exact ⟨rfl, rfl, rfl, rfl⟩
      · rw [Function.update_of_ne hy]
        exact ⟨rfl, rfl, rfl, rfl⟩
    have hwake := (k.unlisted x).wakeParent_eq p
    refine ⟨τ, ((k.unlisted x).wakeParent p).links,
      (hτ ((k.unlisted x).wakeParent p) (by rw [hwake]; rfl) (by rw [hwake]; rfl)).trans
        (by rw [hwake]; rfl), by rw [hwake]; rfl, fun y => ?_, ?_, ?_⟩
    · by_cases hy : y = x
      · subst hy
        exact ⟨hself.terminal.trans (hwoken y).terminal, hself.pageId.trans (hwoken y).pageId,
          hself.parent.trans (hwoken y).parent, hself.owner.trans (hwoken y).owner⟩
      · rw [hother y hy]
        exact hwoken y
    · rintro q hq ⟨⟩
      rw [hother _ hq, Function.update_self]
    · intro y hy hne
      have hyp : y ≠ p := fun h => hne (congrArg some h.symm)
      rw [hother y hy, Function.update_of_ne hyp]

/-- The terminals that `get_another_term_id` looks at are all but `t`. -/
theorem mem_otherTerminals : ∀ t u : TermId, u ∈ [1, 2, 3, 4].map (fun i => t - i) ↔ u ≠ t := by
  decide

/-- The terminal found by `get_another_term_id` is another one with a foreground task. -/
theorem getAnotherTermId_some {t u : TermId} (h : k.getAnotherTermId t = some u) :
    u ≠ t ∧ k.terminalFgTask u ≠ none := by
  unfold getAnotherTermId at h
  have hsome := List.find?_some (p := fun u => (k.terminalFgTask u).isSome) h
  exact ⟨(mem_otherTerminals t u).mp (List.mem_of_find?_eq_some h), by
    simpa [Option.isSome_iff_ne_none] using hsome⟩

theorem getAnotherTermId_none {t : TermId} (h : k.getAnotherTermId t = none) {u : TermId}
    (hu : u ≠ t) : k.terminalFgTask u = none := by
  unfold getAnotherTermId at h
  have := List.find?_eq_none.mp h u ((mem_otherTerminals t u).mpr hu)
  simpa using this

/-- The foreground task of `t` itself does not count. -/
theorem getAnotherTermId_update (k : Kernel) (t : TermId) (o : Option TaskId) :
    getAnotherTermId { k with terminalFgTask := Function.update k.terminalFgTask t o } t
      = k.getAnotherTermId t := by
  have hcongr : ∀ us : List TermId, (∀ u ∈ us, u ≠ t) →
      us.find? (fun u => (Function.update k.terminalFgTask t o u).isSome)
        = us.find? fun u => (k.terminalFgTask u).isSome := by
    intro us
    induction us with
    | nil => intro _; rfl
    | cons u us ih =>
      intro h
      rw [List.find?_cons, List.find?_cons, Function.update_of_ne (h u List.mem_cons_self),
        ih fun v hv => h v (List.mem_cons_of_mem _ hv)]
  exact hcongr _ fun u hu => (mem_otherTerminals t u).mp hu

theorem tearDownOwned_eq {t : TermId} (h : k.tearDownOwned t = .ok k') :
    ∃ f, k.FocusWithout t f ∧ k' = { k with
      terminalFgTask := Function.update k.terminalFgTask t none
      focusTask := f
      gui := k.gui.destroyWindow t
      vidmem := k.vidmem.terminalVidmemClose t
      term := Function.update k.term (some t) { k.term (some t) with valid := false } } := by
  unfold tearDownOwned at h
  obtain ⟨focus, hfocus, h⟩ := bind_eq_ok.mp h
  unfold focusTerminal at hfocus
  cases hf : k.focusTask with
  | none =>
    simp only [hf] at hfocus
    cases hfocus
  | some y =>
    simp only [hf] at hfocus
    cases hfocus
    refine ⟨_, ⟨y, hf, rfl⟩, ?_⟩
    by_cases ht : (k.task y).terminal = some t
    · rw [if_pos ht] at h ⊢
      rw [k.getAnotherTermId_update t none] at h
      cases ha : k.getAnotherTermId t with
      | none =>
        rw [ha] at h
        cases h
        rfl
      | some u =>
        rw [ha] at h
        cases h
        have hfg : Function.update k.terminalFgTask t none u = k.terminalFgTask u :=
          Function.update_of_ne (getAnotherTermId_some ha).1 _ _
        rw [Option.bind_some, ← hfg]
        rfl
    · rw [if_neg ht] at h ⊢
      cases h
      rw [← hf]
      rfl

theorem tearDownShared_eq {p : TaskId} (h : k.tearDownShared p = .ok k') :
    ∃ t y, (k.task p).terminal = some t ∧ k.focusTask = some y ∧ k' = { k with
      terminalFgTask := Function.update k.terminalFgTask t (some p)
      focusTask := if (k.task y).terminal = some t then some p else some y } := by
  unfold tearDownShared at h
  cases ht : (k.task p).terminal with
  | none =>
    simp only [ht] at h
    cases h
  | some t =>
    simp only [ht] at h
    obtain ⟨focus, hfocus, h⟩ := bind_eq_ok.mp h
    unfold focusTerminal at hfocus
    cases hf : k.focusTask with
    | none =>
      simp only [hf] at hfocus
      cases hfocus
    | some y =>
      simp only [hf] at hfocus
      cases hfocus
      refine ⟨t, y, rfl, rfl, ?_⟩
      by_cases hy : (k.task y).terminal = some t
      · rw [if_pos hy] at h ⊢
        cases h
        rfl
      · rw [if_neg hy] at h ⊢
        cases h
        rw [← hf]

/-- **The end of a task.** -/
theorem tearDownTask_tornDown (h : k.tearDownTask x = .ok k') (hv : (k.task x).valid = true) :
    TornDown x k k' := by
  obtain ⟨τ, l, hlists, hlinks, hrole, hparent, hother⟩ := k.tearDownLists_eq x
  unfold tearDownTask at h
  rw [if_neg (by simp [hv])] at h
  obtain ⟨k₁, hterm, h⟩ := bind_eq_ok.mp h
  rw [hlists] at hterm
  cases h
  have hτ : ∀ y, y ≠ x → Function.update τ x { τ x with valid := false } y = τ y :=
    fun y hy => Function.update_of_ne hy _ _
  unfold tearDownTerminal at hterm
  simp only [(hrole x).owner, (hrole x).terminal, (hrole x).parent] at hterm
  cases ho : (k.task x).flags.terminalOwner with
  | true =>
    rw [if_pos ho] at hterm
    cases ht : (k.task x).terminal with
    | none =>
      simp only [ht] at hterm
      cases hterm
    | some t =>
      simp only [ht] at hterm
      obtain ⟨f, ⟨y, hy, hf⟩, rfl⟩ := tearDownOwned_eq hterm
      constructor
      case valid => exact hv
      case dead => simp [taskDeallocate]
      case pageId => simp [taskDeallocate, (hrole x).pageId]
      case parent => exact fun p hp hpar => (hτ p hp).trans (hparent p hp hpar)
      case other => exact fun z hz hpar => (hτ z hz).trans (hother z hz hpar)
      case links => exact hlinks
      case owned =>
        refine fun _ => ⟨t, ht, rfl, ⟨y, hy, ?_⟩, rfl, rfl, rfl⟩
        rw [← (hrole y).terminal]
        exact hf
      case shared =>
        intro hs
        rw [ho] at hs
        cases hs
      all_goals rfl
  | false =>
    rw [if_neg (by simp [ho])] at hterm
    cases hp : (k.task x).parent with
    | none =>
      simp only [hp] at hterm
      cases hterm
      constructor
      case valid => exact hv
      case dead => simp [taskDeallocate]
      case pageId => simp [taskDeallocate, (hrole x).pageId]
      case parent => exact fun p hne hpar => (hτ p hne).trans (hparent p hne hpar)
      case other => exact fun z hz hpar => (hτ z hz).trans (hother z hz hpar)
      case links => exact hlinks
      case owned =>
        intro hs
        rw [ho] at hs
        cases hs
      case shared => exact fun _ => ⟨rfl, rfl, rfl, Or.inl ⟨hp, rfl, rfl⟩⟩
      all_goals rfl
    | some p =>
      simp only [hp] at hterm
      obtain ⟨t, y, ht, hy, rfl⟩ := tearDownShared_eq hterm
      constructor
      case valid => exact hv
      case dead => simp [taskDeallocate]
      case pageId => simp [taskDeallocate, (hrole x).pageId]
      case parent => exact fun q hq hpar => (hτ q hq).trans (hparent q hq hpar)
      case other => exact fun z hz hpar => (hτ z hz).trans (hother z hz hpar)
      case links => exact hlinks
      case owned =>
        intro hs
        rw [ho] at hs
        cases hs
      case shared =>
        refine fun _ => ⟨rfl, rfl, rfl, Or.inr ⟨p, t, y, hp, ?_, rfl, hy, ?_⟩⟩
        · exact (hrole p).terminal.symm.trans ht
        · simp only [← (hrole y).terminal]
          rfl
      all_goals rfl

/-! ## The running task halts -/

/-- Back in the parent `p`, with the status in EAX. -/
structure ToParent (p : TaskId) (status : BitVec 32) (x : TaskId) (k k' : Kernel) : Prop where
  running : k'.running = p
  eax : k'.eax = status
  valid : (k.task p).valid = true
  task : k'.task = k.task
  taskCount : k'.taskCount = k.taskCount
  links : k'.links = k.links
  terminalFgTask : k'.terminalFgTask = k.terminalFgTask
  focusTask : k'.focusTask = k.focusTask
  term : k'.term = k.term
  gui : k'.gui = k.gui
  opened : k'.vidmem.terminalOpened = k.vidmem.terminalOpened
  vidmapEntry : k'.vidmem.vidmapEntry = k.vidmem.vidmapEntry
  paging : ∃ q, k.paging.taskPagingDeallocate (k.task x).pageId = .ok q ∧
    ((k.task p).pageId = -1 ∧ k'.paging = q ∨
      (k.task p).pageId ≠ -1 ∧ q.taskPagingSet (k.task p).pageId = .ok k'.paging)

/-- **What `system_halt` does**: the running task is torn down, and its parent runs, or the
head of the run queue. -/
inductive Halted (noise : Noise) (status : BitVec 32) (k k' : Kernel) : Prop where
  | toParent (p : TaskId) (k₁ : Kernel) (hp : (k.task k.running).parent = some p)
    (ht : TornDown k.running k k₁) (h : ToParent p status k.running k₁ k')
  | alone (k₁ : Kernel) (hp : (k.task k.running).parent = none) (ht : TornDown k.running k k₁)
    (h : Scheduled noise k₁ k') (hne : k'.running ≠ k.running)

theorem haltToParent_eq {p : TaskId} {status : BitVec 32}
    (h : k.haltToParent x p status = .ok k') : ToParent p status x k k' := by
  unfold haltToParent at h
  obtain ⟨q, hq, h⟩ := bind_eq_ok.mp h
  obtain ⟨k₁, hpage, h⟩ := bind_eq_ok.mp h
  have hp : ∃ q', k₁ = { k with paging := q' } ∧ ((k.task p).pageId = -1 ∧ q' = q ∨
      (k.task p).pageId ≠ -1 ∧ q.taskPagingSet (k.task p).pageId = .ok q') := by
    unfold setTaskPage at hpage
    split at hpage
    · next hne =>
      obtain ⟨q', hset, hk⟩ := bind_eq_ok.mp hpage
      cases hk
      exact ⟨q', rfl, Or.inr ⟨hne, hset⟩⟩
    · next heq =>
      cases hpage
      exact ⟨q, rfl, Or.inl ⟨not_not.mp heq, rfl⟩⟩
  obtain ⟨q', rfl, hp⟩ := hp
  obtain ⟨v, r, hv⟩ := terminalSetRunning_eq { k with paging := q' } (k.task p).terminal
  simp only [hv] at h
  unfold switchTo at h
  split at h
  · next hvalid =>
    cases h
    exact ⟨rfl, rfl, hvalid, rfl, rfl, rfl, rfl, rfl, rfl, rfl, rfl, rfl, q, hq, hp⟩
  · cases h

theorem systemHalt_halted {noise : Noise} {status : BitVec 32}
    (h : k.systemHalt noise status = .ok k') (hv : (k.task k.running).valid = true) :
    Halted noise status k k' := by
  unfold systemHalt at h
  simp only at h
  split at h
  · cases h
  obtain ⟨k₁, htear, h⟩ := bind_eq_ok.mp h
  have ht := tearDownTask_tornDown htear hv
  cases hp : (k.task k.running).parent with
  | some p =>
    simp only [hp] at h
    exact .toParent p k₁ hp ht (haltToParent_eq h)
  | none =>
    simp only [hp] at h
    obtain ⟨k₂, hsched, h⟩ := bind_eq_ok.mp h
    split at h
    · cases h
    · next hne =>
      cases h
      exact .alone k₁ hp ht (schedLaunch_scheduled hsched) hne

/-! ## A key wakes the focus task -/

/-- The task `x` can run again: its flag is cleared and it goes to the head of the run queue. -/
def keyWoken (k : Kernel) (x : TaskId) : Kernel :=
  { k.modifyTask x fun t => { t with
      flags := { t.flags with waitingTerminal := false }, remainTime := schedTaskTime } with
    links := k.links.move (.item x) (.head .runQueue) (k.links.next (.head .runQueue)) }

theorem wakeFocus_eq {noise : Noise} (h : k.wakeFocus noise = .ok k') :
    ∃ f, k.focusTask = some f ∧ Scheduled noise (k.keyWoken f) k' := by
  unfold wakeFocus at h
  cases hf : k.focusTask with
  | none =>
    simp only [hf] at h
    cases h
  | some f =>
    simp only [hf] at h
    refine ⟨f, rfl, ?_⟩
    have hk : (((k.modifyTask f fun t => { t with
        flags := { t.flags with waitingTerminal := false } }).schedRefillTime f).schedInsertToHead
          f)
          = k.keyWoken f := by
      simp [schedRefillTime, schedInsertToHead, moveTaskAfterNode, moveTaskToList, keyWoken]
    rw [hk] at h
    exact schedLaunch_scheduled h

/-! ## The running task goes to sleep -/

/-- The running task changes, and goes to a list of waiting tasks. -/
def asleep (k : Kernel) (s : Sentinel) (f : Task → Task) : Kernel :=
  { k.modifyTask k.running f with
    links := k.links.move (.item k.running) (.head s) (k.links.next (.head s)) }

/-- A task that waits for a line of `nbytes` characters. -/
def readerTask (nbytes : ℤ) (t : Task) : Task :=
  { t with
    flags := { t.flags with waitingTerminal := true }
    kstack := .terminalRead nbytes :: t.kstack }

/-- A task that waits for `counter` interrupts of the RTC. -/
def rtcTask (counter : ℤ) (t : Task) : Task :=
  { t with
    flags := { t.flags with waitingRtc := true }
    rtc := { t.rtc with counter := counter }
    kstack := .rtcRead :: t.kstack }

theorem systemRtcRead_eq {noise : Noise} (h : k.systemRtcRead noise = .ok k') :
    (k.runningTask.rtc.targetFreq = -1 ∧ k' = k.ret (-1)) ∨
    (k.runningTask.rtc.targetFreq ≠ -1 ∧ ∃ counter,
      rtcRefill k.runningTask.rtc.targetFreq = .ok counter ∧
      Scheduled noise (k.asleep .rtcWaitList (rtcTask counter)) k') := by
  unfold systemRtcRead at h
  split at h
  · next hfreq =>
    cases h
    exact Or.inl ⟨hfreq, rfl⟩
  · next hfreq =>
    obtain ⟨counter, hcounter, h⟩ := bind_eq_ok.mp h
    refine Or.inr ⟨hfreq, counter, hcounter, ?_⟩
    have hk : (schedMoveRunningAfterNode (k.modifyTask k.running fun t => { t with
        flags := { t.flags with waitingRtc := true }
        rtc := { t.rtc with counter := counter } }) (.head .rtcWaitList)).push .rtcRead
          = k.asleep .rtcWaitList (rtcTask counter) := by
      simp [schedMoveRunningAfterNode, moveTaskAfterNode, moveTaskToList, push, asleep, rtcTask,
        modifyTask]
    rw [← hk]
    exact schedLaunch_scheduled h

/-- The line of one terminal has been read from. -/
structure LineRead (t : Option TermId) (k k' : Kernel) : Prop extends Calm k k' where
  line : ∀ u, u ≠ t → (k.term u).SameLine (k'.term u)
  userAskLen : (k'.term t).userAskLen = 0

theorem readEnd_frame {t t' : Terminal} {i : ℕ} {cs : List UInt8} (h : t.readEnd i = .ok (cs, t')) :
    t.SameShape t' ∧ t'.userAskLen = 0 := by
  unfold Terminal.readEnd at h
  split at h
  · obtain ⟨buf, -, h⟩ := bind_eq_ok.mp h
    cases h
    exact ⟨⟨rfl, rfl⟩, rfl⟩
  · cases h

theorem terminalReadEnd_lineRead {i : ℕ} (h : k.terminalReadEnd i = .ok k') :
    LineRead k.runningTask.terminal k k' := by
  unfold terminalReadEnd at h
  obtain ⟨⟨cs, term⟩, hread, h⟩ := bind_eq_ok.mp h
  obtain ⟨hshape, hask⟩ := readEnd_frame hread
  cases h
  refine ⟨(k.calm_modifyTerm _ hshape).trans (quiet_ret _ _).toCalm, fun u hu => ?_, ?_⟩
  · show (k.term u).SameLine (Function.update k.term k.runningTask.terminal term u)
    rw [Function.update_of_ne hu]
    exact ⟨rfl, rfl, rfl⟩
  · show (Function.update k.term k.runningTask.terminal term k.runningTask.terminal).userAskLen = 0
    rw [Function.update_self]
    exact hask

theorem readBegin_shape (t : Terminal) (nbytes : ℤ) : t.SameShape (t.readBegin nbytes).1 := by
  unfold Terminal.readBegin
  simp only
  split <;> exact ⟨rfl, rfl⟩

/-- **`system_terminal_read`** is done at once, or puts the running task to sleep. -/
theorem systemTerminalRead_eq {noise : Noise} {nbytes : ℤ}
    (h : k.systemTerminalRead noise nbytes = .ok k') :
    LineRead k.runningTask.terminal k k' ∨ ∃ term,
      (k.term k.runningTask.terminal).readBegin (Terminal.limitBytes nbytes) = (term, none) ∧
        Scheduled noise ((k.modifyTerm k.runningTask.terminal fun _ => term).asleep
          .terminalWaitList (readerTask (Terminal.limitBytes nbytes))) k' := by
  unfold systemTerminalRead at h
  simp only at h
  have hshape := readBegin_shape (k.term k.runningTask.terminal) (Terminal.limitBytes nbytes)
  rcases hb : (k.term k.runningTask.terminal).readBegin (Terminal.limitBytes nbytes) with
    ⟨term, i | i⟩
  · simp only [hb] at h
    refine Or.inr ⟨term, rfl, ?_⟩
    have hk : (schedMoveRunningAfterNode (modifyTask (k.modifyTerm k.runningTask.terminal
        fun _ => term) k.running fun t => { t with
          flags := { t.flags with waitingTerminal := true } }) (.head .terminalWaitList)).push
            (.terminalRead (Terminal.limitBytes nbytes))
          = (k.modifyTerm k.runningTask.terminal fun _ => term).asleep .terminalWaitList
            (readerTask (Terminal.limitBytes nbytes)) := by
      simp [schedMoveRunningAfterNode, moveTaskAfterNode, moveTaskToList, push, asleep, readerTask,
        modifyTask]
    rw [← hk]
    exact schedLaunch_scheduled h
  · simp only [hb] at h
    rw [hb] at hshape
    have hread := terminalReadEnd_lineRead h
    refine Or.inl ⟨(k.calm_modifyTerm _ hshape).trans hread.toCalm, fun u hu => ?_,
      hread.userAskLen⟩
    have hline := hread.line u hu
    simp only [modifyTerm_term, Function.update_of_ne hu] at hline
    exact hline

end Kernel

end AuroraOS
