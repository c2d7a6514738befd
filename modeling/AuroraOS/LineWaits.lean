/-
# Waiting for a line

A task that reads from its terminal leaves the length that it asks for in `user_ask_len`,
goes to sleep, and is woken by the key that ends the line or fills the request.  The field
is set as long as the foreground task of the terminal sleeps in a read, unless the length is
negative, the reader goes with its window and leaves the terminal to its parent, or the key
that wakes it also moves the focus.
-/
import AuroraOS.KeyQueue
import AuroraOS.Ownership

namespace AuroraOS

open Ring Machine

/-! ## One line -/

namespace Terminal

/-- The line does not satisfy a read of `n` characters that waits for it yet. -/
structure Unsatisfied (t : Terminal) (n : ℤ) : Prop where
  asked : (t.userAskLen : ℤ) = n
  short : (t.keyBufCnt : ℤ) < n
  limit : n ≤ keyboardBufSize
  plain : newline ∉ t.queue

variable {t t' : Terminal} {n : ℤ} {kb kb' : Keyboard} {code : ℕ} {effect : KeyEffect}

theorem Unsatisfied.asked_ne_zero (h : t.Unsatisfied n) : t.userAskLen ≠ 0 := by
  have hasked := h.asked
  have hshort := h.short
  omega

/-- Only the line counts. -/
theorem Unsatisfied.congr (h : t.Unsatisfied n) (hs : t.SameLine t') : t'.Unsatisfied n := by
  refine ⟨by rw [hs.userAskLen, h.asked], by rw [hs.keyBufCnt]; exact h.short, h.limit, ?_⟩
  rw [queue, hs.keyBuf, hs.keyBufCnt]
  exact h.plain

theorem Unsatisfied.bounded (h : t.Unsatisfied n) : t.Bounded := by
  have hshort := h.short
  have hlimit : n ≤ 128 := h.limit
  refine ⟨?_, fun hfull => ?_⟩
  · show t.keyBufCnt ≤ 128
    omega
  · have hfull' : t.keyBufCnt = 128 := hfull
    omega

/-- **A read that goes to sleep** has found no newline and too few characters. -/
theorem readBegin_unsatisfied (hn : 0 ≤ n) (hlimit : n ≤ keyboardBufSize)
    (h : t.readBegin n = (t', none)) : t'.Unsatisfied n := by
  have hlimit' : n ≤ 128 := hlimit
  unfold readBegin at h
  simp only at h
  set t₁ : Terminal := { t with userAskLen := (n % 256).toNat } with ht₁
  have hspec := scan_spec t₁ n
  by_cases hdone : (t₁.scan n).2 = true ∨ ((t₁.scan n).1 : ℤ) = n
  · rw [if_pos hdone] at h
    exact absurd (Prod.mk.inj h).2 (Option.some_ne_none _)
  · rw [if_neg hdone] at h
    rw [← (Prod.mk.inj h).1]
    obtain ⟨hmiss, hne⟩ := not_or.mp hdone
    have hle : ((t₁.scan n).1 : ℤ) ≤ n := by
      by_contra hgt
      have hplain := hspec.plain ((t₁.scan n).1 - 1) (Nat.zero_le _) (by omega)
      omega
    -- the scan has met no newline and is below `n`, so it has come to the end of the line
    have hall : (t₁.scan n).1 = t₁.keyBufCnt := by
      rcases hspec.miss (by simpa using hmiss) with hcount | hreached
      · omega
      · omega
    refine ⟨?_, by omega, hlimit, fun hm => ?_⟩
    · show ((n % 256).toNat : ℤ) = n
      omega
    · obtain ⟨i, hi, hnl⟩ := (mem_queue t₁).mp hm
      exact (hspec.plain i (Nat.zero_le i) (by omega)).1 hnl

/-- **A key that does not wake the reader** leaves the line unsatisfied. -/
theorem Unsatisfied.pressKey (h : t.Unsatisfied n)
    (hp : t.pressKey kb code = .ok (kb', t', effect)) (hw : effect.wake = false) :
    t'.Unsatisfied n := by
  obtain ⟨kb₁, t₁, e, hok, hpressed⟩ := pressKey_spec t h.bounded (fun _ => h.plain) kb code
  rw [hp] at hok
  cases hok
  cases hpressed with
  | enter ha => cases hw
  | clear ha => exact absurd ha h.asked_ne_zero
  | none interrupt => exact h
  | typed he htyped =>
    have hasked := h.asked
    have hshort := h.short
    have hnot := of_decide_eq_false hw
    have hask := htyped.ask
    refine ⟨by rw [hask, hasked], by omega, h.limit, htyped.plain h.plain⟩

theorem typeKey_ask (t : Terminal) (kb : Keyboard) (code : ℕ) :
    (t.typeKey kb code).userAskLen = t.userAskLen := by
  unfold typeKey
  split
  · split <;> rfl
  · simp only
    split <;> rfl

/-- **No key wakes a task when nobody reads.** -/
theorem pressKey_idle (ha : t.userAskLen = 0)
    (hp : t.pressKey kb code = .ok (kb', t', effect)) :
    t'.userAskLen = 0 ∧ effect.wake = false := by
  unfold Terminal.pressKey at hp
  rw [if_neg fun h => h.1 ha] at hp
  split at hp
  · cases hp
    exact ⟨ha, rfl⟩
  split at hp
  · cases hp
    exact ⟨ha, rfl⟩
  split at hp
  · cases hp
    exact ⟨ha, rfl⟩
  split at hp
  · split at hp <;> cases hp
    exact ⟨ha, rfl⟩
  · cases hp
    have hask := (t.typeKey_ask kb code).trans ha
    refine ⟨hask, decide_eq_false ?_⟩
    rw [hask]
    exact fun h => absurd h.1 (lt_irrefl 0)

end Terminal

namespace Kernel

variable {k k' k₀ : Kernel} {img : FsImage} {noise : Noise} {l : Label} {x y : TaskId}
variable {st : TermId → List TaskId} {place place' : TaskId → Option Sentinel} {t : TermId}
variable {busy : Option TaskId}

/-! ## The statement -/

/-- The task sleeps in a read of `n` characters from the terminal `t`. -/
def SleepsInRead (k : Kernel) (t : TermId) (x : TaskId) (n : ℤ) : Prop :=
  x ∈ k.taskList .terminalWaitList ∧ (k.task x).terminal = some t ∧
    ∃ fs, (k.task x).kstack = .terminalRead n :: fs

/-- The running task is in the part of `system_terminal_read` behind its sleep, where
interrupts are disabled. -/
def InTerminalRead (k : Kernel) : Prop := ∃ n fs, k.runningTask.kstack = .terminalRead n :: fs

/-- **No wake-up is lost, and none is spurious**: `user_ask_len` is set exactly if the foreground
task sleeps in a read, and then the line does not satisfy the read yet. -/
structure WakeUpsExact (k : Kernel) : Prop where
  asked : ∀ t, (k.term (some t)).valid = true → ((k.term (some t)).userAskLen ≠ 0 ↔
    ∃ x n, k.terminalFgTask t = some x ∧ k.SleepsInRead t x n)
  waits : ∀ t x n, (k.term (some t)).valid = true → k.terminalFgTask t = some x →
    k.SleepsInRead t x n → newline ∉ (k.term (some t)).queue ∧
      ((k.term (some t)).queue.length : ℤ) < n

/-- A read of the terminal asks for a length that is not negative, the key that wakes a reader
leaves the focus in its terminal, a sleeping reader whose window is closed owns the terminal,
and a terminal that is opened has been left by no reader. -/
def KeepsReads (img : FsImage) (k : Kernel) (l : Label) : Prop :=
  (∀ n ∈ k.lineAsked img l, 0 ≤ n) ∧
    (∀ effect ∈ k.keyEffect l, effect.wake = true → ∀ f ∈ k.focusTask,
      (k.task (k.keyTarget f effect)).terminal = (k.task f).terminal) ∧
    (∀ x ∈ k.closes l, x ∈ k.taskList .terminalWaitList →
      (k.task x).flags.terminalOwner = true) ∧
    ∀ a ∈ k.executes l, a.newTerminal = true → k.Launches img a l.noise →
      ∀ t ∈ k.freeTerminal, (k.term (some t)).userAskLen = 0

instance (img : FsImage) (k : Kernel) (l : Label) : Decidable (KeepsReads img k l) :=
  inferInstanceAs (Decidable ((∀ n ∈ k.lineAsked img l, _) ∧
    (∀ effect ∈ k.keyEffect l, _ → ∀ f ∈ k.focusTask, _) ∧ (∀ x ∈ k.closes l, _ → _) ∧
    ∀ a ∈ k.executes l, _ → _ → ∀ t ∈ k.freeTerminal, _))

/-! ## The invariant -/

/-- The line of a terminal and its foreground task agree. -/
structure LineAgrees (k : Kernel) (t : TermId) (x : TaskId) : Prop where
  asleep : x ∈ k.taskList .terminalWaitList →
    ∃ n fs, (k.task x).kstack = .terminalRead n :: fs ∧ (k.term (some t)).Unsatisfied n
  awake : x ∉ k.taskList .terminalWaitList → (k.term (some t)).userAskLen = 0

/-- All lines agree with the foreground tasks, apart from the task `busy`. -/
def LinesAgree (k : Kernel) (busy : Option TaskId) : Prop :=
  ∀ t x, (k.term (some t)).valid = true → k.terminalFgTask t = some x → busy ≠ some x →
    k.LineAgrees t x

/-- Only the line counts, the place of the task, and the stack of one that sleeps. -/
theorem LineAgrees.congr (h : k.LineAgrees t x)
    (hline : (k.term (some t)).SameLine (k'.term (some t)))
    (hmem : x ∈ k'.taskList .terminalWaitList ↔ x ∈ k.taskList .terminalWaitList)
    (hstack : x ∈ k.taskList .terminalWaitList → (k'.task x).kstack = (k.task x).kstack) :
    k'.LineAgrees t x := by
  refine ⟨fun hx => ?_, fun hx => ?_⟩
  · have hx' := hmem.mp hx
    obtain ⟨n, fs, hfs, hu⟩ := h.asleep hx'
    exact ⟨n, fs, (hstack hx').trans hfs, hu.congr hline⟩
  · rw [hline.userAskLen]
    exact h.awake (mt hmem.mpr hx)

theorem LinesAgree.weaken (h : k.LinesAgree none) (busy : Option TaskId) : k.LinesAgree busy :=
  fun t x ht hx _ => h t x ht hx (Option.some_ne_none x).symm

/-- The same terminals with the same lines and foreground tasks, and the same sleepers. -/
theorem LinesAgree.congr (ha : k.LinesAgree busy)
    (hterm : ∀ u, (k'.term u).valid = (k.term u).valid ∧ (k.term u).SameLine (k'.term u))
    (hfg : k'.terminalFgTask = k.terminalFgTask)
    (hmem : ∀ x, x ∈ k'.taskList .terminalWaitList ↔ x ∈ k.taskList .terminalWaitList)
    (hstack : ∀ x, x ∈ k.taskList .terminalWaitList → (k'.task x).kstack = (k.task x).kstack) :
    k'.LinesAgree busy := by
  intro t x ht hx hb
  rw [(hterm (some t)).1] at ht
  rw [hfg] at hx
  exact (ha t x ht hx hb).congr (hterm (some t)).2 (hmem x) (hstack x)

/-- The lists are those of the places. -/
theorem taskList_congr (hp : Places k.links place) (hp' : Places k'.links place') {s : Sentinel}
    (h : place' x = some s ↔ place x = some s) : x ∈ k'.taskList s ↔ x ∈ k.taskList s := by
  rw [mem_taskList hp', mem_taskList hp, h]

theorem taskList_of_links (h : k'.links = k.links) (s : Sentinel) :
    k'.taskList s = k.taskList s := by
  rw [taskList, taskList, h]

/-- A task that runs does not sleep. -/
theorem Shaped.awake_of_place (hs : k.Shaped st place) (hx : place x = some .runQueue) :
    x ∉ k.taskList .terminalWaitList := by
  rw [mem_taskList hs.listed.places, hx]
  decide

theorem Quiet.linesAgree (h : Quiet k k') (hr : k.running ∉ k.taskList .terminalWaitList)
    (ha : k.LinesAgree busy) : k'.LinesAgree busy := by
  refine ha.congr (fun u => ⟨(h.term u).valid, h.line u⟩) h.terminalFgTask
    (fun x => by rw [taskList_of_links h.links]) fun x hx => h.kstack x ?_
  rintro rfl
  exact hr hx

theorem Scheduled.linesAgree (h : Scheduled noise k k') (hs : k.Shaped st place)
    (ha : k.LinesAgree busy) : k'.LinesAgree busy := by
  have hp := (h.places hs.listed.places hs.idle_runs).1
  refine ha.congr (fun u => ?_) h.terminalFgTask
    (fun x => taskList_congr hs.listed.places hp Iff.rfl) fun x _ => by rw [h.task]
  rw [h.term]
  exact ⟨rfl, rfl, rfl, rfl⟩

/-! ## A read -/

/-- **A read that returns** leaves nothing behind in `user_ask_len`. -/
theorem LineRead.linesAgree (h : LineRead k.runningTask.terminal k k') (hs : k.Shaped st place)
    (hr : place k.running = some .runQueue) (ha : k.LinesAgree (some k.running)) :
    k'.LinesAgree none := by
  intro t x ht hx _
  rw [(h.term (some t)).valid] at ht
  rw [h.terminalFgTask] at hx
  have hnot := hs.awake_of_place hr
  have hx' : (st t).head? = some x := by rw [← hs.stacked.fg, hx]
  by_cases hxr : x = k.running
  · have hterm : k.runningTask.terminal = some t := by
      rw [runningTask, ← hxr]
      exact (hs.stacked.head hx').2
    refine ⟨fun hm => ?_, fun _ => ?_⟩
    · rw [taskList_of_links h.links, hxr] at hm
      exact absurd hm hnot
    · rw [← hterm]
      exact h.userAskLen
  · have hne : some t ≠ k.runningTask.terminal := by
      intro he
      have hrt := hs.running_top hr ((hs.stacked.member t k.running).mpr
        ⟨(hs.listed.valid _).mpr (by rw [hr]; simp), he.symm⟩)
      exact hxr (Option.some.inj (hx'.symm.trans hrt))
    refine (ha t x ht hx fun he => hxr (Option.some.inj he).symm).congr (h.line (some t) hne)
      (by rw [taskList_of_links h.links]) fun _ => h.kstack x hxr

/-- **A read that waits** has found no line. -/
theorem LinesAgree.readWaits (ha : k.LinesAgree none) (hs : k.Shaped st place) (hk : k.Sound)
    (hr : place k.running = some .runQueue) (hu : k.runningTask.flags.kernelTask = false)
    {n : ℤ} {term : Terminal} (hn : 0 ≤ n) (hlimit : n ≤ keyboardBufSize)
    (hb : (k.term k.runningTask.terminal).readBegin n = (term, none)) :
    ((k.modifyTerm k.runningTask.terminal fun _ => term).asleep .terminalWaitList
      (readerTask n)).LinesAgree none := by
  obtain ⟨t₀, ht₀, hmem⟩ := hs.stacked.user_terminal hk.running hu
  have htop := hs.running_top hr hmem
  have hshape := readBegin_shape (k.term k.runningTask.terminal) n
  rw [hb] at hshape
  have hcalm := k.calm_modifyTerm k.runningTask.terminal hshape
  have hp := asleep_places (hcalm.shaped hs).listed.places (hcalm.running.symm ▸ hr)
    (s := .terminalWaitList) (by decide) (readerTask n)
  intro t x ht hx _
  have hx' : (st t).head? = some x := (hs.stacked.fg t).symm.trans hx
  by_cases hxr : x = k.running
  · obtain rfl : t = t₀ := hs.stacked.head_unique htop (hxr ▸ hx')
    -- the reader itself: its place is new, and so is its frame
    refine ⟨fun _ => ⟨n, (k.task k.running).kstack, ?_, ?_⟩, fun hnot => absurd ?_ hnot⟩
    · rw [hxr]
      show (Function.update k.task k.running (readerTask n (k.task k.running)) k.running).kstack = _
      rw [Function.update_self]
      rfl
    · have hline := Terminal.readBegin_unsatisfied hn hlimit hb
      show (Function.update k.term k.runningTask.terminal term (some t)).Unsatisfied n
      rw [ht₀, Function.update_self]
      exact hline
    · rw [mem_taskList hp, hxr]
      exact Function.update_self _ _ _
  · have hne : some t ≠ k.runningTask.terminal := by
      intro he
      obtain rfl : t = t₀ := Option.some.inj (he.trans ht₀)
      exact hxr (Option.some.inj (hx'.symm.trans htop))
    have hterm : ((k.modifyTerm k.runningTask.terminal fun _ => term).asleep .terminalWaitList
        (readerTask n)).term (some t) = k.term (some t) := Function.update_of_ne hne _ _
    rw [hterm] at ht
    refine (ha t x ht hx (Option.some_ne_none x).symm).congr (by rw [hterm]; exact ⟨rfl, rfl, rfl⟩)
      (taskList_congr hs.listed.places hp ?_) fun _ => ?_
    · exact iff_of_eq (congrArg (· = _) (Function.update_of_ne hxr _ _))
    · show (Function.update k.task k.running _ x).kstack = _
      rw [Function.update_of_ne hxr]

/-- A task that sleeps for the RTC reads from no terminal. -/
theorem LinesAgree.rtcWaits (ha : k.LinesAgree busy) (hs : k.Shaped st place)
    (hr : place k.running = some .runQueue) (counter : ℤ) :
    (k.asleep .rtcWaitList (rtcTask counter)).LinesAgree busy := by
  have hp := asleep_places hs.listed.places hr (s := .rtcWaitList) (by decide) (rtcTask counter)
  refine ha.congr (fun _ => ⟨rfl, rfl, rfl, rfl⟩) rfl
    (fun x => taskList_congr hs.listed.places hp ?_) fun x hx => ?_
  · by_cases hxr : x = k.running
    · rw [hxr, Function.update_self, hr]
      decide
    · rw [Function.update_of_ne hxr]
  · have hxr : x ≠ k.running := by
      rintro rfl
      exact hs.awake_of_place hr hx
    show (Function.update k.task k.running _ x).kstack = _
    rw [Function.update_of_ne hxr]

/-! ## A task is started or ends -/

theorem Untouched.linesAgree (h : Untouched k k') (hs : k.Shaped st place)
    (ha : k.LinesAgree busy) : k'.LinesAgree busy := by
  have hp := h.places hs
  intro t x ht hx hb
  have ht' : (k.term (some t)).valid = true := (h.kept.term (some t)).symm.trans ht
  rw [h.terminalFgTask] at hx
  have hline : (k.term (some t)).SameLine (k'.term (some t)) := by
    rw [h.term _ ht']
    exact ⟨rfl, rfl, rfl⟩
  refine (ha t x ht' hx hb).congr hline (taskList_congr hs.listed.places hp Iff.rfl) fun _ => ?_
  have hv := (hs.stacked.head ((hs.stacked.fg t).symm.trans hx)).1
  rw [h.task x hv]

/-- **A new task does not sleep**, and its terminal has no reader: its parent has just run, or
the terminal is opened and has been left by no reader. -/
theorem Launched.linesAgree {a : ExecuteArgs} (h : Launched k a x k') (hs : k.Shaped st place)
    (hk : k.Sound) (hu : k.UserCall a) (hr : place k.running = some .runQueue)
    (ha : k.LinesAgree none) (hfree : a.newTerminal = true → ∀ t, k.launchTerminal a = some t →
      (k.term (some t)).userAskLen = 0) : k'.LinesAgree none := by
  obtain ⟨hs', hr'⟩ := h.shaped hs hk hu hr
  obtain ⟨t₀, ht₀, hcase⟩ := launchTerminal_cases hs.stacked hk.taskCount_pos hu h hk.running
  intro t y ht hy _
  rw [h.fg] at hy
  by_cases htt : t = t₀
  · obtain rfl : x = y := by
      rw [htt, if_pos ht₀] at hy
      exact Option.some.inj hy
    have hawake : x ∉ k'.taskList .terminalWaitList := hs'.awake_of_place (h.running ▸ hr')
    refine ⟨fun hx => absurd hx hawake, fun _ => ?_⟩
    subst htt
    rcases hcase with ⟨-, hnew, hmem⟩ | ⟨-, hnew, -⟩
    · -- the caller is awake on top of the stack
      have hterm : k'.term (some t) = k.term (some t) :=
        h.term _ fun hn => by rw [hnew] at hn; cases hn
      have hfg : k.terminalFgTask t = some k.running :=
        (hs.stacked.fg t).trans (hs.running_top hr hmem)
      rw [hterm] at ht ⊢
      exact (ha t k.running ht hfg (Option.some_ne_none _).symm).awake (hs.awake_of_place hr)
    · obtain ⟨t', win, ht', -, hterm⟩ := h.newTerm hnew
      obtain rfl : t = t' := Option.some.inj (ht₀.symm.trans ht')
      -- `terminal_allocate` leaves `user_ask_len` as it is
      rw [hterm]
      exact hfree hnew t ht₀
  · have hne : k.launchTerminal a ≠ some t := by
      rw [ht₀]
      exact fun he => htt (Option.some.inj he).symm
    rw [if_neg hne] at hy
    have hterm : k'.term (some t) = k.term (some t) := h.term _ fun _ => hne
    rw [hterm] at ht
    have hyv := (hs.stacked.head ((hs.stacked.fg t).symm.trans hy)).1
    have hyx : y ≠ x := by
      rintro rfl
      rw [h.fresh] at hyv
      cases hyv
    have hplace : launchPlace place a x k.running y = some .terminalWaitList ↔
        place y = some .terminalWaitList := by
      unfold launchPlace
      by_cases hyr : y = k.running
      · split
        · rw [hyr, Function.update_self, hr]
          decide
        · rw [Function.update_of_ne hyx]
      · split
        · rw [Function.update_of_ne hyr, Function.update_of_ne hyx]
        · rw [Function.update_of_ne hyx]
    refine (ha t y ht hy (Option.some_ne_none y).symm).congr (by rw [hterm]; exact ⟨rfl, rfl, rfl⟩)
      (taskList_congr hs.listed.places hs'.listed.places hplace) fun hm => ?_
    have hyr : y ≠ k.running := by
      rintro rfl
      exact hs.awake_of_place hr hm
    rw [h.other y hyx hyr]

/-- **A task ends**: it takes its terminal with it, or leaves it without a reader. -/
theorem TornDown.linesAgree (h : TornDown x k k') (hs : k.Shaped st place)
    (hx : (st t).head? = some x) (ha : k.LinesAgree none)
    (ho : x ∈ k.taskList .terminalWaitList → (k.task x).flags.terminalOwner = true) :
    k'.LinesAgree none := by
  have hp := (h.shaped hs hx).listed.places
  have hxt := (hs.stacked.head hx).2
  -- the foreground tasks of the other terminals
  have hother : ∀ u y, u ≠ t → (k.term (some u)).valid = true → k.terminalFgTask u = some y →
      (k.task x).parent ≠ some y → k'.term (some u) = k.term (some u) → k'.LineAgrees u y := by
    intro u y hut hu hy hyp hterm
    have hyx : y ≠ x := by
      rintro rfl
      exact hut (hs.stacked.head_unique hx ((hs.stacked.fg u).symm.trans hy))
    refine (ha u y hu hy (Option.some_ne_none y).symm).congr (by rw [hterm]; exact ⟨rfl, rfl, rfl⟩)
      (taskList_congr hs.listed.places hp (by rw [tornPlace_other hyx hyp])) fun _ => ?_
    rw [h.other y hyx hyp]
  intro u y hu hy _
  rcases hs.stacked.top_cases hx with ⟨-, hnone, hown⟩ | ⟨p, rest, htwo, hpar, hown⟩
  -- the owner takes its terminal with it
  · obtain ⟨t', ht', hfg, -, hterm, -, -⟩ := h.owned hown
    obtain rfl : t = t' := Option.some.inj (hxt.symm.trans ht')
    have hut : u ≠ t := by
      rintro rfl
      rw [hfg, Function.update_self] at hy
      cases hy
    rw [hfg, Function.update_of_ne hut] at hy
    have hsame : k'.term (some u) = k.term (some u) := by
      rw [hterm]
      exact Function.update_of_ne (by simpa using hut) _ _
    exact hother u y hut (hsame ▸ hu) hy (by rw [hnone]; simp) hsame
  -- the terminal goes back to the parent, which has waited for its child and not for a line
  · have hpt : (k.task p).terminal = some t :=
      ((hs.stacked.member t p).mp (by rw [htwo]; simp)).2
    obtain ⟨hterm, -, -, ⟨hnone, -⟩ | ⟨p', t', -, hp', ht', hfg, -, -⟩⟩ := h.shared hown
    · rw [hpar] at hnone
      cases hnone
    obtain rfl : p = p' := Option.some.inj (hpar.symm.trans hp')
    obtain rfl : t = t' := Option.some.inj (hpt.symm.trans ht')
    rw [hterm] at hu
    by_cases hut : u = t
    · subst hut
      obtain rfl : p = y := by
        rw [hfg, Function.update_self] at hy
        exact Option.some.inj hy
      have hawake : p ∉ k'.taskList .terminalWaitList := by
        rw [mem_taskList hp, hpar, tornPlace, Function.update_self]
        decide
      have hxawake : x ∉ k.taskList .terminalWaitList := by
        intro hm
        rw [ho hm] at hown
        cases hown
      refine ⟨fun hm => absurd hm hawake, fun _ => ?_⟩
      rw [hterm]
      exact (ha u x hu ((hs.stacked.fg u).trans hx) (Option.some_ne_none x).symm).awake hxawake
    · rw [hfg, Function.update_of_ne hut] at hy
      refine hother u y hut hu hy ?_ (by rw [hterm])
      intro he
      obtain rfl : p = y := Option.some.inj (hpar.symm.trans he)
      have hyt := (hs.stacked.head ((hs.stacked.fg u).symm.trans hy)).2
      exact hut (Option.some.inj (hyt.symm.trans hpt))

/-! ## A key -/

/-- The task that a key wakes has the focus behind the key, which finds a reader. -/
theorem keyWakes_effect (h : k.keyWakes l = some y) : ∃ f kb kb' code term effect,
    k.focusTask = some f ∧
      (k.term (k.task f).terminal).pressKey kb code = .ok (kb', term, effect) ∧
      k.keyEffect l = some effect ∧ effect.wake = true ∧ y = k.keyTarget f effect := by
  unfold keyWakes at h
  split at h
  · next scanCode f hstack he hf =>
    split at h
    · cases h
    · next hcode =>
      split at h
      · next kb' term effect hp =>
        split at h
        · next hw =>
          refine ⟨f, _, kb', _, term, effect, hf, hp, ?_, hw, (Option.some.inj h).symm⟩
          simp only [keyEffect, hstack, he, hf, if_neg hcode, hp]
        · cases h
      · cases h
  · cases h

/-- A key that stays in the terminal of the focus task stays with that task. -/
theorem Shaped.keyTarget_eq (hs : k.Shaped st place) {f : TaskId} {effect : KeyEffect}
    (hf : k.focusTask = some f)
    (ht : (k.task (k.keyTarget f effect)).terminal = (k.task f).terminal) :
    k.keyTarget f effect = f := by
  rcases k.keyTarget_cases f effect with he | ⟨u, hu⟩
  · exact he
  · obtain ⟨t, htop⟩ := hs.stacked.focus f hf
    rw [hs.stacked.fg] at hu
    have hut : some u = some t :=
      (hs.stacked.head hu).2.symm.trans (ht.trans (hs.stacked.head htop).2)
    rw [Option.some.inj hut] at hu
    exact Option.some.inj (hu.symm.trans htop)

/-- **A key that wakes finds the focus task asleep in a read.** -/
theorem LinesAgree.sleeper (ha : k.LinesAgree none) (hs : k.Shaped st place) {f : TaskId}
    {kb kb' : Keyboard} {code : ℕ} {term : Terminal} {effect : KeyEffect}
    (hf : k.focusTask = some f)
    (hp : (k.term (k.task f).terminal).pressKey kb code = .ok (kb', term, effect))
    (hw : effect.wake = true) : ∃ t n, (st t).head? = some f ∧ k.SleepsInRead t f n := by
  obtain ⟨t, htop⟩ := hs.stacked.focus f hf
  have hterm := (hs.stacked.head htop).2
  have hvalid : (k.term (some t)).valid = true := by
    rw [hs.stacked.term]
    rintro hnil
    rw [hnil] at htop
    cases htop
  have hagrees := ha t f hvalid ((hs.stacked.fg t).trans htop) (Option.some_ne_none f).symm
  by_cases hm : f ∈ k.taskList .terminalWaitList
  · obtain ⟨n, fs, hfs, -⟩ := hagrees.asleep hm
    exact ⟨t, n, htop, hm, hterm, fs, hfs⟩
  · rw [hterm] at hp
    rw [(Terminal.pressKey_idle (hagrees.awake hm) hp).2] at hw
    cases hw

/-- **The task that a key wakes sleeps in a read.** -/
theorem LinesAgree.keyWakes (ha : k.LinesAgree none) (hs : k.Shaped st place)
    (hc : KeepsReads img k l) (h : k.keyWakes l = some y) :
    ∃ t n, k.focusTask = some y ∧ (st t).head? = some y ∧ k.SleepsInRead t y n := by
  obtain ⟨f, kb, kb', code, term, effect, hf, hp, he, hw, rfl⟩ := keyWakes_effect h
  obtain ⟨t, n, htop, hsleeps⟩ := ha.sleeper hs hf hp hw
  rw [hs.keyTarget_eq hf (hc.2.1 effect he hw f hf)]
  exact ⟨t, n, hf, htop, hsleeps⟩

/-- The task that is woken is not at the head of the run queue. -/
theorem KeepsReads.keepsRings (hc : KeepsReads img k l) (hs : k.Shaped st place)
    (ha : k.LinesAgree none) : KeepsRings k l := by
  intro y hy hn
  obtain ⟨t, n, -, -, hm, -⟩ := ha.keyWakes hs hc hy
  have hplace := hs.listed.places.next_head_item hn
  rw [(mem_taskList hs.listed.places y _).mp hm] at hplace
  cases hplace

/-- The key changes the line of the focus task and no other. -/
theorem Typed.linesAgree {f g : TaskId} {kb kb' : Keyboard} {code : ℕ} {term : Terminal}
    {effect : KeyEffect} (h : Typed k f g term k') (hs : k.Shaped st place)
    (hr : place k.running = some .runQueue) (ha : k.LinesAgree none) (hf : k.focusTask = some f)
    (hp : (k.term (k.task f).terminal).pressKey kb code = .ok (kb', term, effect)) :
    k'.LinesAgree (some f) ∧ (effect.wake = false → k'.LinesAgree none) := by
  obtain ⟨t₀, htop⟩ := hs.stacked.focus f hf
  have hterm := (hs.stacked.head htop).2
  have hlinks : k'.links = k.links := h.calm.links
  have hstack : ∀ y, y ∈ k.taskList .terminalWaitList → (k'.task y).kstack = (k.task y).kstack := by
    intro y hy
    refine h.calm.kstack y ?_
    rintro rfl
    exact hs.awake_of_place hr hy
  have hother : k'.LinesAgree (some f) := by
    intro t x ht hx hb
    have hx' : k.terminalFgTask t = some x := by rw [← hx, h.calm.terminalFgTask]
    have htt : some t ≠ (k.task f).terminal := by
      rw [hterm]
      intro he
      obtain rfl := Option.some.inj he
      exact hb (htop.symm.trans ((hs.stacked.fg t).symm.trans hx'))
    refine (ha t x ?_ hx' (Option.some_ne_none x).symm).congr (h.line _ htt)
      (by rw [taskList_of_links hlinks]) (hstack x)
    rw [← ht, (h.calm.term (some t)).valid]
  refine ⟨hother, fun hw t x ht hx _ => ?_⟩
  by_cases hxf : x = f
  · subst hxf
    have hx' : k.terminalFgTask t = some x := by rw [← hx, h.calm.terminalFgTask]
    obtain rfl := hs.stacked.head_unique htop ((hs.stacked.fg t).symm.trans hx')
    have hagrees := ha t x (by rw [← ht, (h.calm.term (some t)).valid]) hx'
      (Option.some_ne_none x).symm
    have htyped := h.typed
    rw [hterm] at htyped hp
    refine ⟨fun hm => ?_, fun hm => ?_⟩
    · rw [taskList_of_links hlinks] at hm
      obtain ⟨n, fs, hfs, hu⟩ := hagrees.asleep hm
      exact ⟨n, fs, (hstack x hm).trans hfs, (hu.pressKey hp hw).congr htyped⟩
    · rw [taskList_of_links hlinks] at hm
      rw [htyped.userAskLen]
      exact (Terminal.pressKey_idle (hagrees.awake hm) hp).1
  · exact hother t x ht hx fun he => hxf (Option.some.inj he).symm

/-- **The reader that a key wakes runs next**, in the rest of its read. -/
theorem Scheduled.reader (h : Scheduled noise (k.keyWoken x) k') (hs : k.Shaped st place)
    (hx : (st t).head? = some x) {n : ℤ} (hsleeps : k.SleepsInRead t x n)
    (ha : k.LinesAgree (some x)) :
    k'.running = x ∧ k'.InTerminalRead ∧ k'.LinesAgree (some x) := by
  obtain ⟨hm, hterm, fs, hfs⟩ := hsleeps
  have hplace := (mem_taskList hs.listed.places x _).mp hm
  have hne : k.links.next (.head .runQueue) ≠ .item x := by
    intro hn
    rw [hs.listed.places.next_head_item hn] at hplace
    cases hplace
  have hwoken := hs.keyWoken hx hne
  have hhead : (k.keyWoken x).links.next (.head .runQueue) = .item x := by
    obtain ⟨q, hq, hpq⟩ := hs.listed.places
    have hrings := hq.move_head ((hpq x _).mpr hplace) hne
    exact hrings.next_head_eq_item.mpr (by rw [Function.update_self]; rfl)
  have hkstack : ((k.keyWoken x).task x).kstack = .terminalRead n :: fs := by
    show (Function.update k.task x _ x).kstack = _
    rw [Function.update_self]
    exact hfs
  have hrun : k'.running = x := by
    have hlinks : k'.links.next (.head .runQueue) = .item x := by
      rcases h.links with he | ⟨z, hidle, hz, -, -⟩
      · rw [he, hhead]
      · -- a reader is no idle task
        obtain rfl : x = z := by
          have := hhead.symm.trans hz
          injection this
        obtain ⟨hv, hterm'⟩ := hwoken.stacked.head hx
        have hkernel := hwoken.stacked.idleKernel x hv hidle
        rw [(hwoken.stacked.kernel x hv).mp hkernel] at hterm'
        cases hterm'
    rcases h.head with ⟨hempty, -⟩ | hnext
    · rw [hhead] at hempty
      cases hempty
    · have := hlinks.symm.trans hnext
      injection this with this
      exact this.symm
  refine ⟨hrun, ⟨n, fs, ?_⟩, h.linesAgree hwoken ?_⟩
  · rw [runningTask, hrun, h.task]
    exact hkstack
  · intro u y hu hy hb
    have hyx : y ≠ x := fun he => hb (by rw [he])
    refine (ha u y hu hy hb).congr ⟨rfl, rfl, rfl⟩
      (taskList_congr hs.listed.places hwoken.listed.places ?_) fun _ => ?_
    · rw [Function.update_of_ne hyx]
    · show (Function.update k.task x _ y).kstack = _
      rw [Function.update_of_ne hyx]

/-! ## A step -/

theorem Calm.freeTerminal (h : Calm k k') : k'.freeTerminal = k.freeTerminal := by
  unfold Kernel.freeTerminal
  congr 1
  funext t
  rw [(h.term (some t)).valid]

/-- Whether a task can be started is decided by what a calm change keeps. -/
theorem Calm.launches (h : Calm k k') {a : ExecuteArgs} (hl : k'.Launches img a noise) :
    k.Launches img a noise := by
  have hterm : k'.runningTask.terminal = k.runningTask.terminal := by
    rw [runningTask, h.running]
    exact (h.core k.running).terminal
  unfold Launches Refused Rejected Loadable at hl ⊢
  rw [h.taskCount, h.freeTerminal, h.paging, hterm] at hl
  exact hl

/-- **Every step that meets the condition keeps the lines**, and one that wakes a reader goes on
in its read. -/
theorem Outcome.linesAgree (h : Outcome img k₀ l (k₀.entered l) k') (hk₀ : k₀.Sound)
    (hs₀ : k₀.Shaped st place) (hr₀ : place k₀.running = some .runQueue)
    (ha₀ : k₀.LinesAgree none) (hc : KeepsReads img k₀ l) :
    k'.InTerminalRead ∧ k'.LinesAgree (some k'.running) ∨ k'.LinesAgree none := by
  have hent := k₀.quiet_entered l
  have hk := hent.toCalm.sound hk₀
  have hs := hent.toCalm.shaped hs₀
  have hr : place (k₀.entered l).running = some .runQueue := by rw [hent.running, hr₀]
  have ha := hent.linesAgree (hs₀.awake_of_place hr₀) ha₀
  have quiet : ∀ {k₁}, Quiet (k₀.entered l) k₁ → k₁.LinesAgree none :=
    fun h => h.linesAgree (hs.awake_of_place hr) ha
  cases h with
  | quiet h => exact Or.inr (quiet h)
  | vidmap t ht h =>
    rw [h]
    refine Or.inr (ha.congr (fun _ => ⟨rfl, rfl, rfl, rfl⟩) rfl (fun _ => Iff.rfl) fun x hx => ?_)
    have hne : x ≠ (k₀.entered l).running := by
      rintro rfl
      exact hs.awake_of_place hr hx
    show (Function.update (k₀.entered l).task _ _ x).kstack = _
    rw [Function.update_of_ne hne]
  | lineRead h => exact Or.inr (h.linesAgree hs hr (ha.weaken _))
  | readWaits nbytes term hb he hu h =>
    obtain ⟨n, hn, rfl⟩ := he
    have hlimit : 0 ≤ Terminal.limitBytes n ∧ Terminal.limitBytes n ≤ keyboardBufSize := by
      have hpos := hc.1 n hn
      unfold Terminal.limitBytes keyboardBufSize
      split <;> omega
    have hshape := readBegin_shape ((k₀.entered l).term (k₀.entered l).runningTask.terminal)
      (Terminal.limitBytes n)
    rw [hb] at hshape
    have hcalm := (k₀.entered l).calm_modifyTerm (k₀.entered l).runningTask.terminal hshape
    exact Or.inr (h.linesAgree
      ((hcalm.shaped hs).asleep hr hu (by decide) (by decide) (by decide) (readerTask_held _))
      (ha.readWaits hs hk hr hu hlimit.1 hlimit.2 hb))
  | rtcWaits counter hu h =>
    exact Or.inr (h.linesAgree
      (hs.asleep hr hu (by decide) (by decide) (by decide) (rtcTask_held counter))
      (ha.rtcWaits hs hr counter))
  | yields k₁ hq h =>
    have hs₁ := hq.toCalm.shaped hs
    have hr₁ : place k₁.running = some .runQueue := by rw [hq.running, hr]
    have hp := schedMoveRunningToLast_places hs₁.listed.places hr₁
    have hterm : k₁.schedMoveRunningToLast.term = k₁.term := by
      unfold schedMoveRunningToLast
      split <;> rfl
    refine Or.inr (h.linesAgree (k₁.kept_schedMoveRunningToLast.shaped hs₁ hp)
      ((quiet hq).congr (fun u => ?_) k₁.kept_schedMoveRunningToLast.terminalFgTask
        (fun x => taskList_congr hs₁.listed.places hp Iff.rfl) fun x _ => ?_))
    · rw [hterm]
      exact ⟨rfl, rfl, rfl, rfl⟩
    · rw [schedMoveRunningToLast_task]
  | rtc k₁ wakeCount hl he h =>
    obtain ⟨place', hp', hm⟩ := rtcLoop_moves hs.listed.places hl
    have hs' := (rtcLoop_kept hl).shaped_moved hs hp' (hm.moves _)
    obtain ⟨hterm, hstack⟩ := rtcLoop_reads hl
    have ha₁ : k₁.LinesAgree none := by
      refine ha.congr (fun u => ?_) (rtcLoop_kept hl).terminalFgTask
        (fun x => taskList_congr hs.listed.places hp' ?_) fun x _ => hstack x
      · rw [hterm]
        exact ⟨rfl, rfl, rfl, rfl⟩
      -- the tasks that are woken come from the list of the RTC
      · rcases hm x with hx | ⟨hx, hx'⟩
        · rw [hx]
        · rw [hx, hx']
          decide
    rcases h with ⟨-, rfl⟩ | ⟨-, h⟩
    · exact Or.inr ha₁
    · exact Or.inr (h.linesAgree hs' ha₁)
  | key k₁ f kb kb' code term effect hf hp he h hw =>
    obtain ⟨hother, hall⟩ := h.linesAgree hs hr ha hf hp
    rcases hw with ⟨hw, rfl⟩ | ⟨hw, hwakes, hsched⟩
    · exact Or.inr (hall hw)
    · -- the condition leaves the focus with the reader
      have hf₀ : k₀.focusTask = some f := hent.focusTask.symm.trans hf
      have htarget : (k₀.entered l).keyTarget f effect = k₀.keyTarget f effect := by
        unfold keyTarget
        rw [hent.terminalFgTask]
      have hfocus : (k₀.entered l).keyTarget f effect = f := by
        rw [htarget]
        exact hs₀.keyTarget_eq hf₀ (hc.2.1 effect he hw f hf₀)
      rw [hfocus] at h hsched
      have hk₁ : Calm (k₀.entered l) k₁ := by
        have hcalm := h.calm
        rw [← hf] at hcalm
        exact hcalm
      obtain ⟨t, n, htop, hm, hterm, fs, hfs⟩ := ha.sleeper hs hf hp hw
      have hfr : f ≠ (k₀.entered l).running := by
        rintro rfl
        exact hs.awake_of_place hr hm
      obtain ⟨hrun, hin, ha'⟩ := hsched.reader (hk₁.shaped hs) htop (n := n)
        ⟨by rwa [taskList_of_links hk₁.links], (hk₁.core f).terminal.trans hterm, fs,
          (hk₁.kstack f hfr).trans hfs⟩ hother
      rw [hrun]
      exact Or.inl ⟨hin, ha'⟩
  | raised g f hg hf h =>
    have hawake : ({ k₀.entered l with gui := g, focusTask := f } : Kernel).running ∉
        ({ k₀.entered l with gui := g, focusTask := f } : Kernel).taskList .terminalWaitList :=
      hs.awake_of_place hr
    refine Or.inr (h.linesAgree hawake (ha.congr (fun _ => ⟨rfl, rfl, rfl, rfl⟩) rfl
      (fun _ => Iff.rfl) fun _ _ => rfl))
  | refused k₁ k₂ hq h hq' =>
    have hs₁ := hq.toCalm.shaped hs
    have hs₂ := h.kept.shaped hs₁ (h.places hs₁)
    have hr₂ : place k₂.running = some .runQueue := by rw [h.running, hq.running, hr]
    exact Or.inr (hq'.linesAgree (hs₂.awake_of_place hr₂) (h.linesAgree hs₁ (quiet hq)))
  | launched k₁ a x hx hq _ hl h =>
    have hk₁ := hq.toCalm.sound hk
    have hu₁ : k₁.UserCall a :=
      ((hent.kept.trans hq.kept).userCall hk₀.running).mpr (userCall_of_executes hx)
    have hr₁ : place k₁.running = some .runQueue := by rw [hq.running, hr]
    have hcalm := hent.trans hq
    refine Or.inr (h.linesAgree (hq.toCalm.shaped hs) hk₁ hu₁ hr₁ (quiet hq) fun hn t ht => ?_)
    rw [launchTerminal, hu₁.1, hn, if_neg (by simp), if_pos rfl, hcalm.toCalm.freeTerminal] at ht
    rw [(hcalm.line (some t)).userAskLen]
    exact hc.2.2.2 a hx hn (hcalm.toCalm.launches hl) t ht
  | halted k₁ cause hcause hq h =>
    obtain ⟨t, ht⟩ := hs₀.halting_top hk₀ hr₀ hcause
    have hs₁ := hq.toCalm.shaped hs
    have hr₁ : place k₁.running = some .runQueue := by rw [hq.running, hr]
    have ht₁ : (st t).head? = some k₁.running := by rw [hq.running, hent.running, ht]
    have htorn : ∀ {k₂}, TornDown k₁.running k₁ k₂ → k₂.LinesAgree none := fun h =>
      h.linesAgree hs₁ ht₁ (quiet hq) fun hm => absurd hm (hs₁.awake_of_place hr₁)
    cases h with
    | toParent p k₂ hp hd h =>
      have hd' := htorn hd
      refine Or.inr (hd'.congr (fun u => ?_) h.terminalFgTask
        (fun x => by rw [taskList_of_links h.links]) fun x _ => by rw [h.task])
      rw [h.term]
      exact ⟨rfl, rfl, rfl, rfl⟩
    | alone k₂ hp hd h hne => exact Or.inr (h.linesAgree (hd.shaped hs₁ ht₁) (htorn hd))
  | closed k₁ x hclose hq h =>
    obtain ⟨t, ht⟩ := closes_fg hclose
    rw [hs₀.stacked.fg] at ht
    refine Or.inr (h.linesAgree (hq.toCalm.shaped hs) ht (quiet hq) fun hm => ?_)
    have hcalm := hent.trans hq
    rw [taskList_of_links hcalm.links] at hm
    rw [(hcalm.core x).flags]
    exact hc.2.2.1 x hclose hm

/-- Behind its sleep the read only returns. -/
theorem step_inTerminalRead (hin : k.InTerminalRead) (h : k.step img l = .ok k') :
    LineRead k.pop.runningTask.terminal k.pop k' := by
  obtain ⟨n, fs, hfs⟩ := hin
  unfold step at h
  rw [hfs] at h
  split at h
  · next f rest hstack he =>
    obtain ⟨rfl, rfl⟩ := List.cons.inj hstack
    exact terminalReadEnd_lineRead h
  · cases h
  · cases h
  · next hstack _ => cases hstack
  · next hstack _ => cases hstack
  · next hstack _ => cases hstack
  · next hstack _ => cases hstack
  · next hstack _ => cases hstack
  · next hstack _ _ _ _ _ _ => cases hstack

/-! ## Runs -/

/-- The stacks, the places and the lines; a reader that has been woken is on its own with its
line. -/
def InReading (k : Kernel) : Prop :=
  ∃ st place, k.Shaped st place ∧ place k.running = some .runQueue ∧
    (k.InTerminalRead ∧ k.LinesAgree (some k.running) ∨ k.LinesAgree none)

theorem step_inReading (hk : k.Sound) (hi : k.InReading) (hc : KeepsReads img k l)
    (h : k.step img l = .ok k') : k'.InReading := by
  obtain ⟨st, place, hs, hr, hlines⟩ := hi
  have hout := step_outcome hk h
  rcases hlines with ⟨hin, ha⟩ | ha
  -- only the rest of the read can follow, and no key comes in between
  · have hrings : KeepsRings k l := by
      obtain ⟨n, fs, hfs⟩ := hin
      intro y hy
      simp [keyWakes, hfs] at hy
    obtain ⟨st', place', hs', hr', -⟩ := hout.placed hk hs hr hrings
    refine ⟨st', place', hs', hr', Or.inr ?_⟩
    exact (step_inTerminalRead hin h).linesAgree (k.quiet_pop.toCalm.shaped hs) hr
      (k.quiet_pop.linesAgree (hs.awake_of_place hr) ha)
  · obtain ⟨st', place', hs', hr', -⟩ := hout.placed hk hs hr (hc.keepsRings hs ha)
    exact ⟨st', place', hs', hr', hout.linesAgree hk hs hr ha hc⟩

theorem start_inReading : start.InReading := by
  obtain ⟨st, place, hs, hr⟩ := start_inOrder
  refine ⟨st, place, hs, hr, Or.inr fun t x ht => ?_⟩
  have hnone : ∀ t, (start.term (some t)).valid = false := by decide +kernel
  rw [hnone t] at ht
  cases ht

/-- **Lines that agree with their readers are waited for exactly.** -/
theorem LinesAgree.wakeUpsExact (ha : k.LinesAgree none) (hs : k.Shaped st place) :
    k.WakeUpsExact := by
  refine ⟨fun t ht => ⟨fun hask => ?_, ?_⟩, ?_⟩
  · obtain ⟨x, xs, hst⟩ := List.exists_cons_of_ne_nil ((hs.stacked.term t).mp ht)
    have hx : (st t).head? = some x := by rw [hst, List.head?_cons]
    have hfg := (hs.stacked.fg t).trans hx
    have hagrees := ha t x ht hfg (Option.some_ne_none x).symm
    by_cases hm : x ∈ k.taskList .terminalWaitList
    · obtain ⟨n, fs, hfs, -⟩ := hagrees.asleep hm
      exact ⟨x, n, hfg, hm, (hs.stacked.head hx).2, fs, hfs⟩
    · exact absurd (hagrees.awake hm) hask
  · rintro ⟨x, n, hfg, hm, -⟩
    obtain ⟨m, fs, -, hu⟩ := (ha t x ht hfg (Option.some_ne_none x).symm).asleep hm
    exact hu.asked_ne_zero
  · rintro t x n ht hfg ⟨hm, -, fs, hfs⟩
    obtain ⟨m, fs', hfs', hu⟩ := (ha t x ht hfg (Option.some_ne_none x).symm).asleep hm
    obtain ⟨rfl, -⟩ : n = m ∧ fs = fs' := by simpa using hfs.symm.trans hfs'
    exact ⟨hu.plain, by rw [Terminal.length_queue]; exact hu.short⟩

/-- The shell starts `cat`, which reads and sleeps; the init task runs. -/
def catSleeps : List Event :=
  firstTick ++ openShell ++ [.execute catCommand, .read 0 false 128, .resume, .resume, .resume]

/-- `cat` sleeps in a read, and its window is closed. -/
def catClosed : List Event :=
  catSleeps ++ mousePacket 0x38 0 0xEC ++ mousePacket 0x18 0 0 ++ mousePacket 0x18 0 0 ++
    mousePacket 0x18 0x92 0 ++ mousePacket 0x09 0 0 ++ mousePacket 0x08 0 0

end Kernel

end AuroraOS
