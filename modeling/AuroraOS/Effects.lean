/-
# What a step does to pages, terminals and parents

For the pages, the terminals and the parents of the tasks most outcomes of a step are
alike: they are kept, and at most another task runs.  `Effect` has the six outcomes that
differ, and from them every step of the kernel keeps it sound.
-/
import AuroraOS.Outcome

namespace AuroraOS

open Ring Machine

/-- A task holds the same page and terminal, and has the same parent and the same kind. -/
structure Task.SameHoldings (t t' : Task) : Prop where
  parent : t'.parent = t.parent
  pageId : t'.pageId = t.pageId
  vidmapEnabled : t'.vidmapEnabled = t.vidmapEnabled
  terminal : t'.terminal = t.terminal
  kernelTask : t'.flags.kernelTask = t.flags.kernelTask
  initTask : t'.flags.initTask = t.flags.initTask
  idleTask : t'.flags.idleTask = t.flags.idleTask
  terminalOwner : t'.flags.terminalOwner = t.flags.terminalOwner

theorem Task.SameHoldings.refl (t : Task) : t.SameHoldings t :=
  ⟨rfl, rfl, rfl, rfl, rfl, rfl, rfl, rfl⟩

theorem Task.SameHoldings.trans {t t' t'' : Task} (h : t.SameHoldings t')
    (h' : t'.SameHoldings t'') : t.SameHoldings t'' where
  parent := h'.parent.trans h.parent
  pageId := h'.pageId.trans h.pageId
  vidmapEnabled := h'.vidmapEnabled.trans h.vidmapEnabled
  terminal := h'.terminal.trans h.terminal
  kernelTask := h'.kernelTask.trans h.kernelTask
  initTask := h'.initTask.trans h.initTask
  idleTask := h'.idleTask.trans h.idleTask
  terminalOwner := h'.terminalOwner.trans h.terminalOwner

theorem Task.SameCore.sameHoldings {t t' : Task} (h : t.SameCore t') : t.SameHoldings t' where
  parent := h.parent
  pageId := h.pageId
  vidmapEnabled := h.vidmapEnabled
  terminal := h.terminal
  kernelTask := congrArg _ h.flags
  initTask := congrArg _ h.flags
  idleTask := congrArg _ h.flags
  terminalOwner := congrArg _ h.flags

namespace Kernel

variable {k k' k'' k₀ : Kernel} {img : FsImage} {noise : Noise} {l : Label} {x : TaskId}

/-! ## What is kept -/

/-- **The valid tasks and terminals hold what they held**, and the same task runs. -/
structure Kept (k k' : Kernel) : Prop where
  running : k'.running = k.running
  taskCount : k'.taskCount = k.taskCount
  valid : ∀ x, (k'.task x).valid = (k.task x).valid
  held : ∀ x, (k.task x).valid = true → (k.task x).SameHoldings (k'.task x)
  paging : k'.paging = k.paging
  vidmapEntry : k'.vidmem.vidmapEntry = k.vidmem.vidmapEntry
  opened : k'.vidmem.terminalOpened = k.vidmem.terminalOpened
  windowed : k.Windowed → k'.Windowed
  term : ∀ t, (k'.term t).valid = (k.term t).valid
  terminalFgTask : k'.terminalFgTask = k.terminalFgTask
  focus : ∀ f, k'.focusTask = some f → k.focusTask = some f ∨ ∃ t, k.terminalFgTask t = some f

theorem Kept.trans (h : Kept k k') (h' : Kept k' k'') : Kept k k'' where
  running := h'.running.trans h.running
  taskCount := h'.taskCount.trans h.taskCount
  valid := fun x => (h'.valid x).trans (h.valid x)
  held := fun x hx => (h.held x hx).trans (h'.held x ((h.valid x).trans hx))
  paging := h'.paging.trans h.paging
  vidmapEntry := h'.vidmapEntry.trans h.vidmapEntry
  opened := h'.opened.trans h.opened
  windowed := fun hw => h'.windowed (h.windowed hw)
  term := fun t => (h'.term t).trans (h.term t)
  terminalFgTask := h'.terminalFgTask.trans h.terminalFgTask
  focus := fun f hf => by
    rcases h'.focus f hf with hf | ⟨t, ht⟩
    · exact h.focus f hf
    · exact Or.inr ⟨t, h.terminalFgTask ▸ ht⟩

theorem Calm.kept (h : Calm k k') : Kept k k' where
  running := h.running
  taskCount := h.taskCount
  valid := fun x => (h.core x).valid
  held := fun x _ => (h.core x).sameHoldings
  paging := h.paging
  vidmapEntry := h.vidmapEntry
  opened := h.opened
  windowed := fun hw => hw.congr h.windowStack fun t =>
    ⟨(h.term (some t)).valid, (h.term (some t)).terminalId⟩
  term := fun t => (h.term t).valid
  terminalFgTask := h.terminalFgTask
  focus := fun _ hf => Or.inl (h.focusTask ▸ hf)

theorem Quiet.kept (h : Quiet k k') : Kept k k' := h.toCalm.kept

theorem kept_modifyTask (k : Kernel) (x : TaskId) {f : Task → Task}
    (hf : ∀ t : Task, (f t).valid = t.valid ∧ t.SameHoldings (f t)) :
    Kept k (k.modifyTask x f) := by
  have htask : ∀ y, ((k.modifyTask x f).task y).valid = (k.task y).valid ∧
      (k.task y).SameHoldings ((k.modifyTask x f).task y) := by
    intro y
    by_cases hy : y = x
    · subst hy
      simpa using hf (k.task y)
    · simpa [Function.update_of_ne hy] using Task.SameHoldings.refl (k.task y)
  exact ⟨rfl, rfl, fun y => (htask y).1, fun y _ => (htask y).2, rfl, rfl, rfl,
    fun hw => hw.congr rfl fun _ => ⟨rfl, rfl⟩, fun _ => rfl, rfl, fun _ => Or.inl⟩

/-- The lists do not count. -/
theorem kept_links (k : Kernel) (l : Links ListNode) : Kept k { k with links := l } :=
  ⟨rfl, rfl, fun _ => rfl, fun _ _ => .refl _, rfl, rfl, rfl,
    fun hw => hw.congr rfl fun _ => ⟨rfl, rfl⟩, fun _ => rfl, rfl, fun _ => Or.inl⟩

theorem kept_asleep (k : Kernel) (s : Sentinel) {f : Task → Task}
    (hf : ∀ t : Task, (f t).valid = t.valid ∧ t.SameHoldings (f t)) : Kept k (k.asleep s f) :=
  (k.kept_modifyTask k.running hf).trans (kept_links _ _)

theorem kept_keyWoken (k : Kernel) (x : TaskId) : Kept k (k.keyWoken x) := by
  have hflag : Kept k (k.modifyTask x fun t => { t with
      flags := { t.flags with waitingTerminal := false }, remainTime := schedTaskTime }) :=
    k.kept_modifyTask x fun _ => ⟨rfl, rfl, rfl, rfl, rfl, rfl, rfl, rfl, rfl⟩
  exact hflag.trans (kept_links _ _)

theorem kept_schedMoveRunningToLast (k : Kernel) : Kept k k.schedMoveRunningToLast := by
  unfold schedMoveRunningToLast
  split
  · exact k.kept_links _
  · exact (Quiet.refl k).kept

/-- A task that sleeps holds what it held. -/
theorem readerTask_held (nbytes : ℤ) (t : Task) : (readerTask nbytes t).valid = t.valid ∧
    t.SameHoldings (readerTask nbytes t) :=
  ⟨rfl, rfl, rfl, rfl, rfl, rfl, rfl, rfl, rfl⟩

theorem rtcTask_held (counter : ℤ) (t : Task) : (rtcTask counter t).valid = t.valid ∧
    t.SameHoldings (rtcTask counter t) :=
  ⟨rfl, rfl, rfl, rfl, rfl, rfl, rfl, rfl, rfl⟩

theorem schedMoveRunningToLast_task (k : Kernel) : k.schedMoveRunningToLast.task = k.task := by
  unfold schedMoveRunningToLast
  split <;> rfl

/-- Another order of the same windows, and the focus on another foreground task. -/
theorem kept_raised (k : Kernel) {g : Gui} {f : Option TaskId}
    (hf : ∀ y, f = some y → k.focusTask = some y ∨ ∃ t, k.terminalFgTask t = some y)
    (hg : ∀ wins, k.gui.Holds wins → ∃ wins', g.Holds wins' ∧ ∀ u, u ∈ wins' ↔ u ∈ wins) :
    Kept k { k with gui := g, focusTask := f } := by
  refine ⟨rfl, rfl, fun _ => rfl, fun _ _ => .refl _, rfl, rfl, rfl, ?_, fun _ => rfl, rfl, hf⟩
  rintro ⟨wins, hw, hmem, hid⟩
  obtain ⟨wins', hw', hmem'⟩ := hg wins hw
  exact ⟨wins', hw', fun t => (hmem' t).trans (hmem t), fun t ht => hid t ((hmem' t).mp ht)⟩

theorem focus_of_raised {g : Gui} {f : Option TaskId} (hf : k.FocusFollows g f) (y : TaskId)
    (hy : f = some y) : k.focusTask = some y ∨ ∃ t, k.terminalFgTask t = some y := by
  rcases hf with ⟨rfl, -⟩ | ⟨t, -, rfl, -⟩
  · exact Or.inl hy
  · rcases Option.or_eq_some_iff.mp hy with ht | ⟨-, hy⟩
    · exact Or.inr ⟨_, ht⟩
    · exact Or.inl hy

/-- A key leaves the focus, or moves it to a foreground task. -/
theorem keyTarget_cases (k : Kernel) (f : TaskId) (effect : KeyEffect) :
    k.keyTarget f effect = f ∨ ∃ t, k.terminalFgTask t = some (k.keyTarget f effect) := by
  unfold keyTarget
  cases effect.focus with
  | none => exact Or.inl rfl
  | some i =>
    show (k.terminalFgTask i).getD f = f ∨
      ∃ t, k.terminalFgTask t = some ((k.terminalFgTask i).getD f)
    cases hi : k.terminalFgTask i with
    | none => exact Or.inl rfl
    | some x => exact Or.inr ⟨i, hi⟩

/-- The focus behind a key. -/
theorem kept_keyFocus {f : TaskId} (hf : k.focusTask = some f) (effect : KeyEffect) :
    Kept k { k with focusTask := some (k.keyTarget f effect) } := by
  refine kept_raised k ?_ fun wins hw => ⟨wins, hw, fun _ => Iff.rfl⟩
  rintro y ⟨⟩
  rcases k.keyTarget_cases f effect with ht | ht
  · rw [ht]
    exact Or.inl hf
  · exact Or.inr ht

theorem Untouched.kept (h : Untouched k k') : Kept k k' := by
  have hterm : ∀ t, (k'.term t).valid = (k.term t).valid := by
    intro t
    cases ht : (k.term t).valid with
    | true => rw [h.term t ht, ht]
    | false => exact (h.freeTerm t ht).1
  refine ⟨h.running, h.taskCount, fun x => ?_, fun x hx => ?_, h.paging, by rw [h.vidmem],
    by rw [h.vidmem], ?_, hterm, h.terminalFgTask, fun f hf => Or.inl (h.focusTask ▸ hf)⟩
  · cases hx : (k.task x).valid with
    | true => rw [h.task x hx, hx]
    | false => exact h.free x hx
  · rw [h.task x hx]
    exact .refl _
  · rintro ⟨wins, hw, hmem, hid⟩
    refine ⟨wins, h.gui ▸ hw, fun t => ?_, fun t ht => ?_⟩
    · rw [hmem, hterm]
    · rw [h.term _ ((hmem t).mp ht), hid t ht]

/-! ## The loop of the RTC -/

/-- What each turn of the loop preserves holds behind it. -/
theorem rtcLoop_induction {P : Kernel → Prop}
    (htick : ∀ m w x m' w', P m → m.rtcTick w x = .ok (m', w') → P m') :
    ∀ {n : ℕ} {m m' : Kernel} {w w' : ℕ} {node : ListNode}, P m →
      rtcLoop n m w node = .ok (m', w') → P m' := by
  intro n
  induction n with
  | zero =>
    intro m m' w w' node hm h
    unfold rtcLoop at h
    split at h
    · cases h
      exact hm
    · cases h
  | succ n ih =>
    intro m m' w w' node hm h
    unfold rtcLoop at h
    split at h
    · cases h
      exact hm
    · obtain ⟨x, -, h⟩ := bind_eq_ok.mp h
      obtain ⟨⟨m₁, w₁⟩, hx, h⟩ := bind_eq_ok.mp h
      exact ih (htick m w x m₁ w₁ hm hx) h

/-- A task of which the RTC interrupt is counted. -/
def tickedTask (t : Task) : Task := { t with rtc := { t.rtc with counter := t.rtc.counter - 1 } }

/-- A task whose flag is cleared by `rtc_interrupt_handler`. -/
def rtcCleared (t : Task) : Task := { t with flags := { t.flags with waitingRtc := false } }

/-- One turn of the loop. -/
theorem rtcTick_cases {m m' : Kernel} {w w' : ℕ} (h : m.rtcTick w x = .ok (m', w')) :
    ((m.task x).rtc.counter ≠ 1 ∧ w' = w ∧ m' = m.modifyTask x tickedTask) ∨
    ((m.task x).rtc.counter = 1 ∧ w' = w + 1 ∧ ∃ p, (m.task x).parent = some p ∧
      m' = { ((m.modifyTask x tickedTask).modifyTask p rtcCleared).schedRefillTime x with
        links := m.links.move (.item x) (.head .runQueue) (m.links.next (.head .runQueue)) }) := by
  have hcounter : ((m.modifyTask x tickedTask).task x).rtc.counter =
    (m.task x).rtc.counter - 1 := by
    simp [tickedTask]
  have hparent : ((m.modifyTask x tickedTask).task x).parent = (m.task x).parent := by
    simp [tickedTask]
  rw [rtcTick] at h
  split at h
  · next hc =>
    have hone : (m.task x).rtc.counter = 1 := by
      have := hcounter.symm.trans hc
      omega
    split at h
    · cases h
    · next p hp =>
      cases h
      exact Or.inr ⟨hone, rfl, p, hparent.symm.trans hp, rfl⟩
  · next hc =>
    cases h
    exact Or.inl ⟨fun hone => hc (hcounter.trans (by omega)), rfl, rfl⟩

theorem rtcTick_kept {m m' : Kernel} {w w' : ℕ} (h : m.rtcTick w x = .ok (m', w')) :
    Kept m m' := by
  have htick : Kept m (m.modifyTask x tickedTask) :=
    m.kept_modifyTask x fun _ => ⟨rfl, rfl, rfl, rfl, rfl, rfl, rfl, rfl, rfl⟩
  rcases rtcTick_cases h with ⟨-, -, rfl⟩ | ⟨-, -, p, -, rfl⟩
  · exact htick
  · have hclear : Kept (m.modifyTask x tickedTask)
        ((m.modifyTask x tickedTask).modifyTask p rtcCleared) :=
      kept_modifyTask _ p fun _ => ⟨rfl, rfl, rfl, rfl, rfl, rfl, rfl, rfl, rfl⟩
    exact ((htick.trans hclear).trans (quiet_schedRefillTime _ x).kept).trans (kept_links _ _)

theorem rtcLoop_kept {n : ℕ} {m' : Kernel} {w w' : ℕ} {node : ListNode}
    (h : rtcLoop n k w node = .ok (m', w')) : Kept k m' :=
  rtcLoop_induction (P := Kept k) (fun _ _ _ _ _ hm hx => hm.trans (rtcTick_kept hx))
    (Quiet.refl k).kept h

/-- The loop leaves the terminals and the stacks. -/
theorem rtcLoop_reads {n : ℕ} {m' : Kernel} {w w' : ℕ} {node : ListNode}
    (h : rtcLoop n k w node = .ok (m', w')) :
    m'.term = k.term ∧ ∀ y, (m'.task y).kstack = (k.task y).kstack := by
  refine rtcLoop_induction (P := fun m => m.term = k.term ∧
    ∀ y, (m.task y).kstack = (k.task y).kstack) (fun m w x m' w' hm hx => ?_)
    ⟨rfl, fun _ => rfl⟩ h
  obtain ⟨hterm, hstack⟩ := hm
  have hmodify : ∀ (m : Kernel) z (f : Task → Task), (∀ t : Task, (f t).kstack = t.kstack) →
      ∀ y, ((m.modifyTask z f).task y).kstack = (m.task y).kstack := by
    intro m z f hf y
    by_cases hy : y = z
    · simp [hy, hf]
    · simp [hy]
  rcases rtcTick_cases hx with ⟨-, -, rfl⟩ | ⟨-, -, p, -, rfl⟩
  · exact ⟨hterm, fun y => (hmodify m x tickedTask (fun _ => rfl) y).trans (hstack y)⟩
  · refine ⟨hterm, fun y => ?_⟩
    have hrefill := hmodify ((m.modifyTask x tickedTask).modifyTask p rtcCleared) x
      (fun t => { t with remainTime := schedTaskTime }) (fun _ => rfl) y
    have hclear := hmodify (m.modifyTask x tickedTask) p rtcCleared (fun _ => rfl) y
    have htick := hmodify m x tickedTask (fun _ => rfl) y
    exact hrefill.trans (hclear.trans (htick.trans (hstack y)))

/-! ## The effects -/

/-- `system_vidmap` for the terminal `t`. -/
def vidmapped (k : Kernel) (t : TermId) : Kernel :=
  { k.modifyTask k.running fun t => { t with vidmapEnabled := true } with
    vidmem := k.vidmem.taskSetUserVidmap (some t) }

/-- **What a step does** to the pages, the terminals and the parents. -/
inductive Effect (img : FsImage) (k₀ : Kernel) (l : Label) (k' : Kernel) : Prop where
  /-- Nothing. -/
  | kept (h : Kept k₀ k')
  /-- The running task maps video memory. -/
  | vidmap (k₁ : Kernel) (hk : Kept k₀ k₁) (t : TermId) (ht : k₁.runningTask.terminal = some t)
      (h : k' = (k₁.vidmapped t).ret 0)
  /-- The scheduler chooses a task. -/
  | scheduled (k₁ : Kernel) (hk : Kept k₀ k₁) (h : Scheduled l.noise k₁ k')
  /-- A task is started. -/
  | launched (k₁ : Kernel) (hk : Kept k₀ k₁) (a : ExecuteArgs) (x : TaskId)
      (ha : k₀.executes l = some a) (hl : k₁.Launches img a l.noise) (h : Launched k₁ a x k')
  /-- The running task halts. -/
  | halted (k₁ : Kernel) (hk : Kept k₀ k₁) (cause : EndCause) (hc : k₀.halts l = some cause)
      (h : Halted l.noise cause.status k₁ k')
  /-- The window of another task is closed. -/
  | closed (k₁ : Kernel) (hk : Kept k₀ k₁) (x : TaskId) (hc : k₀.closes l = some x)
      (h : TornDown x k₁ k')

theorem Outcome.effect (h : Outcome img k₀ l (k₀.entered l) k') : Effect img k₀ l k' := by
  have hent : Kept k₀ (k₀.entered l) := (k₀.quiet_entered l).kept
  cases h with
  | quiet h => exact .kept (hent.trans h.kept)
  | vidmap t ht h => exact .vidmap _ hent t ht h
  | lineRead h => exact .kept (hent.trans h.toCalm.kept)
  | readWaits nbytes term hb he hu h =>
    have hshape := readBegin_shape ((k₀.entered l).term (k₀.entered l).runningTask.terminal) nbytes
    rw [hb] at hshape
    exact .scheduled _ ((hent.trans (calm_modifyTerm _ _ hshape).kept).trans
      (kept_asleep _ _ (readerTask_held nbytes))) h
  | rtcWaits counter hu h =>
    exact .scheduled _ (hent.trans (kept_asleep _ _ (rtcTask_held counter))) h
  | yields k₁ hq h =>
    exact .scheduled _ ((hent.trans hq.kept).trans k₁.kept_schedMoveRunningToLast) h
  | rtc k₁ wakeCount hl he h =>
    rcases h with ⟨-, rfl⟩ | ⟨-, h⟩
    · exact .kept (hent.trans (rtcLoop_kept hl))
    · exact .scheduled _ (hent.trans (rtcLoop_kept hl)) h
  | key k₁ f kb kb' code term effect hf hp he h hw =>
    have htyped := hent.trans ((kept_keyFocus hf effect).trans h.calm.kept)
    rcases hw with ⟨-, rfl⟩ | ⟨-, -, hsched⟩
    · exact .kept htyped
    · exact .scheduled _ (htyped.trans (kept_keyWoken _ _)) hsched
  | raised g f hg hf h =>
      exact .kept (hent.trans ((kept_raised _ (focus_of_raised hf) hg).trans h.kept))
  | refused k₁ k₂ hq h hq' => exact .kept (hent.trans (hq.kept.trans (h.kept.trans hq'.kept)))
  | launched k₁ a x ha hq _ hl h => exact .launched k₁ (hent.trans hq.kept) a x ha hl h
  | halted k₁ cause hc hq h => exact .halted k₁ (hent.trans hq.kept) cause hc h
  | closed k₁ x hc hq h => exact .closed k₁ (hent.trans hq.kept) x hc h

theorem step_effect (hs : k₀.Sound) (h : k₀.step img l = .ok k') : Effect img k₀ l k' :=
  (step_outcome hs h).effect

/-! ## The tasks behind an effect -/

theorem TornDown.held (h : TornDown x k k') {y : TaskId} (hy : y ≠ x) :
    (k'.task y).valid = (k.task y).valid ∧ (k.task y).SameHoldings (k'.task y) := by
  by_cases hp : (k.task x).parent = some y
  · rw [h.parent y hy hp]
    exact ⟨rfl, rfl, rfl, rfl, rfl, rfl, rfl, rfl, rfl⟩
  · rw [h.other y hy hp]
    exact ⟨rfl, .refl _⟩

theorem TornDown.valid_iff (h : TornDown x k k') (y : TaskId) :
    (k'.task y).valid = true ↔ (k.task y).valid = true ∧ y ≠ x := by
  by_cases hy : y = x
  · subst hy
    simp [h.dead]
  · rw [(h.held hy).1]
    simp [hy]

theorem Launched.fresh_ne_running {a : ExecuteArgs} (h : Launched k a x k')
    (hr : (k.task k.running).valid = true) : k.running ≠ x := by
  rintro rfl
  rw [h.fresh] at hr
  cases hr

theorem Launched.held {a : ExecuteArgs} (h : Launched k a x k') {y : TaskId} (hy : y ≠ x) :
    (k'.task y).valid = (k.task y).valid ∧ (k.task y).SameHoldings (k'.task y) := by
  by_cases hr : y = k.running
  · rw [hr, h.caller]
    exact ⟨rfl, rfl, rfl, rfl, rfl, rfl, rfl, rfl, rfl⟩
  · rw [h.other y hy hr]
    exact ⟨rfl, .refl _⟩

theorem Launched.valid_iff {a : ExecuteArgs} (h : Launched k a x k') (y : TaskId) :
    (k'.task y).valid = true ↔ (k.task y).valid = true ∨ y = x := by
  by_cases hy : y = x
  · subst hy
    simp [h.valid]
  · rw [(h.held hy).1]
    simp [hy]

/-! ## Every step keeps the kernel sound -/

theorem Kept.sound (h : Kept k k') (hs : k.Sound) : k'.Sound where
  count := by
    have hlive : k'.live = k.live := by
      ext x
      rw [mem_live, mem_live, h.valid]
    rw [h.taskCount, hlive, hs.count]
  running := by rw [h.running, h.valid, hs.running]
  windowed := h.windowed hs.windowed
  closed := fun t ht => by
    rw [h.opened]
    exact hs.closed t ((h.term _).symm.trans ht)

theorem vidmapped_valid (k : Kernel) (t : TermId) (y : TaskId) :
    ((k.vidmapped t).task y).valid = (k.task y).valid :=
  modifyTask_valid k k.running y (fun t => { t with vidmapEnabled := true }) fun _ => rfl

theorem sound_vidmapped {t : TermId} (hs : k.Sound) : (k.vidmapped t).Sound where
  count := by
    have hlive : (k.vidmapped t).live = k.live := by
      ext x
      rw [mem_live, mem_live, vidmapped_valid]
    rw [hlive]
    exact hs.count
  running := (vidmapped_valid k t k.running).trans hs.running
  windowed := hs.windowed.congr rfl fun _ => ⟨rfl, rfl⟩
  closed := hs.closed

theorem Scheduled.sound (h : Scheduled noise k k') (hs : k.Sound) : k'.Sound where
  count := by
    have hlive : k'.live = k.live := by
      ext x
      rw [mem_live, mem_live, h.task]
    rw [h.taskCount, hlive, hs.count]
  running := by
    rw [h.task]
    by_cases hr : k'.running = k.running
    · rw [hr, hs.running]
    · exact (h.switch hr).1
  windowed := hs.windowed.congr (by rw [h.gui]) fun t => by rw [h.term]; exact ⟨rfl, rfl⟩
  closed := by
    rw [h.term, h.opened]
    exact hs.closed

theorem Launched.sound {a : ExecuteArgs} (h : Launched k a x k') (hs : k.Sound) : k'.Sound where
  count := by
    have hlive : k'.live = insert x k.live := by
      ext y
      rw [mem_live, h.valid_iff, Finset.mem_insert, mem_live, or_comm]
    have hfresh : x ∉ k.live := by
      rw [mem_live, h.fresh]
      exact Bool.false_ne_true
    rw [h.taskCount, hlive, Finset.card_insert_of_notMem hfresh, hs.count]
  running := by rw [h.running, h.valid]
  windowed := h.windowed hs.windowed
  closed := by
    intro t ht
    by_cases hnew : a.newTerminal = true ∧ k.launchTerminal a = some t
    · obtain ⟨t', win, ht', -, hterm⟩ := h.newTerm hnew.1
      obtain rfl : t = t' := Option.some.inj (hnew.2.symm.trans ht')
      rw [hterm] at ht
      cases ht
    · have hterm : k'.term (some t) = k.term (some t) := h.term _ fun hn he => hnew ⟨hn, he⟩
      rw [h.opened, hs.closed t (hterm ▸ ht)]
      simp only [hnew, decide_false, Bool.or_false]

theorem TornDown.count (h : TornDown x k k') (hc : k.taskCount = k.live.card) :
    k'.taskCount = k'.live.card := by
  have hlive : k'.live = k.live.erase x := by
    ext y
    rw [mem_live, h.valid_iff, Finset.mem_erase, mem_live, and_comm]
  have hx : x ∈ k.live := mem_live.mpr h.valid
  have hpos : 0 < k.live.card := Finset.card_pos.mpr ⟨x, hx⟩
  have hle : k.live.card ≤ 10 := by simpa using Finset.card_le_univ k.live
  rw [h.taskCount, hlive, Finset.card_erase_of_mem hx, hc]
  omega

theorem TornDown.windowed (h : TornDown x k k') (hw : k.Windowed) : k'.Windowed := by
  cases ho : (k.task x).flags.terminalOwner with
  | false =>
    obtain ⟨hterm, -, hgui, -⟩ := h.shared ho
    exact hw.congr (by rw [hgui]) fun t => by rw [hterm]; exact ⟨rfl, rfl⟩
  | true =>
    obtain ⟨t, -, -, -, hterm, -, hgui⟩ := h.owned ho
    obtain ⟨wins, hwins, hmem, hid⟩ := hw
    have herase : ∀ u, u ∈ wins.erase t ↔ u ≠ t ∧ u ∈ wins := fun u =>
      hwins.nodup.mem_erase_iff
    refine ⟨wins.erase t, hgui ▸ hwins.destroyWindow t, fun u => ?_, fun u hu => ?_⟩
    · rw [herase, hterm, hmem]
      by_cases hu : u = t
      · simp [hu]
      · simp [hu]
    · have hu' := (herase u).mp hu
      rw [hterm, Function.update_of_ne (by simpa using hu'.1)]
      exact hid u hu'.2

theorem TornDown.closed (h : TornDown x k k')
    (hc : ∀ t, (k.term (some t)).valid = false → k.vidmem.terminalOpened t = false) (t : TermId)
    (ht : (k'.term (some t)).valid = false) : k'.vidmem.terminalOpened t = false := by
  cases ho : (k.task x).flags.terminalOwner with
  | false =>
    obtain ⟨hterm, hopen, -⟩ := h.shared ho
    rw [hopen]
    exact hc t (hterm ▸ ht)
  | true =>
    obtain ⟨u, -, -, -, hterm, hopen, -⟩ := h.owned ho
    rw [hopen]
    by_cases hu : t = u
    · rw [hu, Function.update_self]
    · rw [Function.update_of_ne hu]
      rw [hterm, Function.update_of_ne (by simpa using hu)] at ht
      exact hc t ht

theorem TornDown.sound (h : TornDown x k k') (hs : k.Sound) (hx : k.running ≠ x) : k'.Sound where
  count := h.count hs.count
  running := by
    rw [h.running, h.valid_iff]
    exact ⟨hs.running, hx⟩
  windowed := h.windowed hs.windowed
  closed := h.closed hs.closed

theorem ToParent.sound {p : TaskId} {status : BitVec 32} (h : ToParent p status x k k')
    (hc : k.taskCount = k.live.card) (hw : k.Windowed)
    (hcl : ∀ t, (k.term (some t)).valid = false → k.vidmem.terminalOpened t = false) :
    k'.Sound where
  count := by
    have hlive : k'.live = k.live := by
      ext y
      rw [mem_live, mem_live, h.task]
    rw [h.taskCount, hlive, hc]
  running := by rw [h.running, h.task, h.valid]
  windowed := hw.congr (by rw [h.gui]) fun t => by rw [h.term]; exact ⟨rfl, rfl⟩
  closed := by
    rw [h.term, h.opened]
    exact hcl

theorem Halted.sound {status : BitVec 32} (h : Halted noise status k k') (hs : k.Sound) :
    k'.Sound := by
  cases h with
  | toParent p k₁ hp ht h =>
    exact h.sound (ht.count hs.count) (ht.windowed hs.windowed) (ht.closed hs.closed)
  | alone k₁ hp ht h hne =>
    have hrun : k'.running ≠ k₁.running := by rw [ht.running]; exact hne
    constructor
    case count =>
      have hlive : k'.live = k₁.live := by
        ext y
        rw [mem_live, mem_live, h.task]
      rw [h.taskCount, hlive, ht.count hs.count]
    case running =>
      rw [h.task]
      exact (h.switch hrun).1
    case windowed =>
      exact (ht.windowed hs.windowed).congr (by rw [h.gui]) fun t => by
        rw [h.term]
        exact ⟨rfl, rfl⟩
    case closed =>
      rw [h.term, h.opened]
      exact ht.closed hs.closed

theorem closes_ne_running (h : k₀.closes l = some x) : x ≠ k₀.running := by
  unfold closes at h
  split at h
  · have := Option.filter_eq_some_iff.mp h
    exact of_decide_eq_true this.2
  · cases h

/-- **Every step keeps the kernel sound.** -/
theorem Effect.sound (h : Effect img k₀ l k') (hs : k₀.Sound) : k'.Sound := by
  cases h with
  | kept h => exact h.sound hs
  | vidmap k₁ hk t ht h =>
    rw [h]
    exact (quiet_ret _ _).kept.sound (sound_vidmapped (hk.sound hs))
  | scheduled k₁ hk h => exact h.sound (hk.sound hs)
  | launched k₁ hk a x ha hl h => exact h.sound (hk.sound hs)
  | halted k₁ hk cause hc h => exact h.sound (hk.sound hs)
  | closed k₁ hk x hc h =>
    refine h.sound (hk.sound hs) ?_
    rw [hk.running]
    exact (closes_ne_running hc).symm

theorem step_sound (hs : k₀.Sound) (h : k₀.step img l = .ok k') : k'.Sound :=
  (step_effect hs h).sound hs

/-- The kernel at start is sound. -/
theorem start_sound : start.Sound where
  count := by decide +kernel
  running := by decide +kernel
  windowed := ⟨[], ⟨by decide +kernel, List.nodup_nil⟩, by decide +kernel, by simp⟩
  closed := by decide +kernel

end Kernel

end AuroraOS
