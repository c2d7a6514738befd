/-
# The active window

The window on top is drawn as the active one, and the keys go to the terminal of the focus
task.  A press, a launch and the end of a child keep the two together; `Alt+F1`..`Alt+F3`
move the focus only, and the end of a terminal chooses the next window and the next focus
by two different rules.
-/
import AuroraOS.Ownership
import AuroraOS.Drag

namespace AuroraOS

open Ring Machine

namespace Kernel

variable {k k' k₀ : Kernel} {img : FsImage} {noise : Noise} {l : Label} {x y : TaskId}
variable {st : TermId → List TaskId} {place : TaskId → Option Sentinel} {t u : TermId}

/-! ## The statement -/

/-- **The active window is the focused terminal.** -/
def ActiveFocused (k : Kernel) : Prop :=
  ∀ t, k.topWindow = some t →
    ∃ f, k.focusTask = some f ∧ (k.task f).terminal = some (k.term (some t)).win.terminalId

/-- When the task `x` ends and takes the active window with it, the focus goes to the terminal
of the window below. -/
def PassesOn (k : Kernel) (x : TaskId) : Prop :=
  (k.task x).flags.terminalOwner = true → ∀ t, (k.task x).terminal = some t →
    k.topWindow = some t → k.getAnotherTermId t = k.gui.windowStack.getD 1 none

instance (k : Kernel) (x : TaskId) : Decidable (k.PassesOn x) :=
  inferInstanceAs (Decidable (_ → ∀ _, _))

/-- The key leaves the focus in its terminal, the end of a terminal passes it on to the window
below, and no key wakes the task at the head of the run queue. -/
def KeepsActive (k : Kernel) (l : Label) : Prop :=
  KeepsRings k l ∧
    (∀ effect ∈ k.keyEffect l, ∀ f ∈ k.focusTask,
      (k.task (k.keyTarget f effect)).terminal = (k.task f).terminal) ∧
    (k.halts l ≠ none → k.PassesOn k.running) ∧ ∀ x ∈ k.closes l, k.PassesOn x

instance (k : Kernel) (l : Label) : Decidable (KeepsActive k l) :=
  inferInstanceAs (Decidable (_ ∧ (∀ effect ∈ k.keyEffect l, _) ∧ _ ∧ ∀ x ∈ k.closes l, _))

/-! ## The focus under the top window -/

/-- The focus task belongs to the terminal of the window on top. -/
def FocusOnTop (k : Kernel) : Prop :=
  ∀ t f, k.topWindow = some t → k.focusTask = some f → (k.task f).terminal = some t

/-- Only the windows, the focus and the terminal of the focus task count. -/
theorem FocusOnTop.of (h : k.FocusOnTop) (hw : k'.gui.windowStack = k.gui.windowStack)
    (hf : k'.focusTask = k.focusTask)
    (ht : ∀ f, k.focusTask = some f → (k'.task f).terminal = (k.task f).terminal) :
    k'.FocusOnTop := by
  intro t f htop hfocus
  rw [topWindow, hw] at htop
  rw [hf] at hfocus
  rw [ht f hfocus]
  exact h t f htop hfocus

theorem Calm.focusOnTop (h : Calm k k') (ha : k.FocusOnTop) : k'.FocusOnTop :=
  ha.of h.windowStack h.focusTask fun f _ => (h.core f).terminal

theorem Scheduled.focusOnTop (h : Scheduled noise k k') (ha : k.FocusOnTop) : k'.FocusOnTop :=
  ha.of (by rw [h.gui]) h.focusTask fun f _ => by rw [h.task]

theorem FocusOnTop.asleep (ha : k.FocusOnTop) (s : Sentinel) {g : Task → Task}
    (hg : ∀ t, (g t).terminal = t.terminal) : (k.asleep s g).FocusOnTop :=
  ha.of rfl rfl fun f _ => k.modifyTask_terminal k.running f hg

theorem FocusOnTop.keyWoken (ha : k.FocusOnTop) (x : TaskId) : (k.keyWoken x).FocusOnTop :=
  ha.of rfl rfl fun f _ => k.modifyTask_terminal x f (f := fun t => { t with
    flags := { t.flags with waitingTerminal := false }, remainTime := schedTaskTime }) fun _ => rfl

theorem rtcLoop_gui {n : ℕ} {m' : Kernel} {w w' : ℕ} {node : ListNode}
    (h : rtcLoop n k w node = .ok (m', w')) : m'.gui = k.gui := by
  refine rtcLoop_induction (P := fun m => m.gui = k.gui) (fun m w x m' w' hm hx => ?_) rfl h
  rcases rtcTick_cases hx with ⟨-, -, rfl⟩ | ⟨-, -, p, -, rfl⟩ <;> exact hm

/-- Under the top window there is the focus task. -/
theorem FocusOnTop.activeFocused (h : k.FocusOnTop) (hw : k.Windowed) (hf : k.Focused) :
    k.ActiveFocused := by
  intro t htop
  obtain ⟨wins, hholds, hmem, hid⟩ := hw
  have ht : t ∈ wins := by
    rw [topWindow, hholds.top] at htop
    exact List.mem_of_head? htop
  obtain ⟨f, hfocus⟩ := Option.ne_none_iff_exists'.mp (hf t ((hmem t).mp ht))
  refine ⟨f, hfocus, ?_⟩
  rw [hid t ht]
  exact h t f htop hfocus

/-! ## The end of a task -/

theorem Calm.passesOn (h : Calm k k') (hp : k.PassesOn x) : k'.PassesOn x := by
  intro ho t ht htop
  rw [(h.core x).flags] at ho
  rw [(h.core x).terminal] at ht
  rw [topWindow, h.windowStack] at htop
  have hterm : k'.getAnotherTermId t = k.getAnotherTermId t := by
    rw [getAnotherTermId, getAnotherTermId, h.terminalFgTask]
  rw [hterm, h.windowStack]
  exact hp ho t ht htop

/-- The window on top when the one of the terminal `t` is gone. -/
theorem destroyWindow_topWindow {g : Gui} {wins : List TermId} (h : g.Holds wins) (t : TermId) :
    (g.destroyWindow t).windowStack.headD none
      = if g.windowStack.headD none = some t then g.windowStack.getD 1 none
        else g.windowStack.headD none := by
  rw [(h.destroyWindow t).top, h.top]
  cases wins with
  | nil => rfl
  | cons v rest =>
    by_cases hv : v = t
    · have hnext : g.windowStack.getD 1 none = rest.head? := by
        rw [h.stack, List.map_cons, List.cons_append, List.getD_cons_succ]
        cases rest with
        | nil => cases guiMaxWindowNum - [v].length <;> rfl
        | cons _ _ => rfl
      rw [hv, List.erase_cons_head, List.head?_cons, if_pos rfl, hnext]
    · rw [List.erase_cons_tail (by simpa using hv), List.head?_cons, List.head?_cons,
        if_neg (by simpa using hv)]

/-- **The end of a task that passes the focus on** keeps it under the top window. -/
theorem TornDown.focusOnTop (h : TornDown x k k') (hs : k.Stacked st)
    (hx : (st t).head? = some x) (hw : k.Windowed) (hp : k.PassesOn x) (ha : k.FocusOnTop) :
    k'.FocusOnTop := by
  have hxt := (hs.head hx).2
  have hterm : ∀ y, y ≠ x → (k'.task y).terminal = (k.task y).terminal :=
    fun y hy => (h.held hy).2.terminal
  cases ho : (k.task x).flags.terminalOwner with
  | true =>
    obtain ⟨t', ht', -, ⟨y, hy, hfy⟩, -, -, hgui⟩ := h.owned ho
    obtain rfl : t = t' := Option.some.inj (hxt.symm.trans ht')
    obtain ⟨wins, hholds, -, -⟩ := hw
    have htop' : k'.topWindow = if k.topWindow = some t then k.gui.windowStack.getD 1 none
        else k.topWindow := by
      rw [topWindow, hgui]
      exact destroyWindow_topWindow hholds t
    intro u f htop hf
    rw [htop'] at htop
    rw [hfy] at hf
    by_cases hyt : (k.task y).terminal = some t
    · rw [if_pos hyt] at hf
      obtain ⟨v, hv, hfg⟩ := Option.bind_eq_some_iff.mp hf
      rw [hs.fg] at hfg
      have hfv := (hs.head hfg).2
      have hne : f ≠ x := by
        rintro rfl
        exact (getAnotherTermId_some hv).1 (Option.some.inj (hfv.symm.trans hxt))
      rw [hterm f hne, hfv]
      by_cases hkt : k.topWindow = some t
      · rw [if_pos hkt, ← hp ho t hxt hkt, hv] at htop
        exact htop
      · rw [if_neg hkt] at htop
        have hyu := ha u y htop hy
        rw [hyt] at hyu
        exact absurd (htop.trans hyu.symm) hkt
    · rw [if_neg hyt] at hf
      obtain rfl : y = f := Option.some.inj hf
      have hne : y ≠ x := by
        rintro rfl
        exact hyt hxt
      have hkt : k.topWindow ≠ some t := fun hkt => hyt (ha t y hkt hy)
      rw [if_neg hkt] at htop
      rw [hterm y hne]
      exact ha u y htop hy
  | false =>
    obtain ⟨-, -, hgui, hcase⟩ := h.shared ho
    rcases hs.top_cases hx with ⟨-, -, howner⟩ | ⟨p, rest, hst, hpar, -⟩
    · rw [ho] at howner
      cases howner
    have hpt : (k.task p).terminal = some t := ((hs.member t p).mp (by simp [hst])).2
    have hpx : p ≠ x := by
      rintro rfl
      have hnodup := hs.nodup t
      rw [hst] at hnodup
      simp at hnodup
    rcases hcase with ⟨hnone, -, -⟩ | ⟨p', t', y, hpar', hpt', -, hy, hfocus⟩
    · rw [hpar] at hnone
      cases hnone
    obtain rfl : p = p' := Option.some.inj (hpar.symm.trans hpar')
    obtain rfl : t = t' := Option.some.inj (hpt.symm.trans hpt')
    intro u f htop hf
    rw [topWindow, hgui] at htop
    have hyu := ha u y htop hy
    rw [hfocus] at hf
    by_cases hyt : (k.task y).terminal = some t
    · -- the parent is in the same terminal
      rw [if_pos hyt] at hf
      obtain rfl : p = f := Option.some.inj hf
      rw [hterm p hpx, hpt, ← hyt, hyu]
    · rw [if_neg hyt] at hf
      obtain rfl : y = f := Option.some.inj hf
      have hne : y ≠ x := by
        rintro rfl
        exact hyt hxt
      rw [hterm y hne, hyu]

/-! ## Steps -/

/-- **Every step keeps the focus under the top window**, if the key does not move the focus to
another terminal and the end of a task passes it on. -/
theorem Outcome.focusOnTop (h : Outcome img k₀ l (k₀.entered l) k') (hk₀ : k₀.Sound)
    (hs₀ : k₀.Shaped st place) (hr₀ : place k₀.running = some .runQueue) (ha₀ : k₀.FocusOnTop)
    (hc : KeepsActive k₀ l) {st' : TermId → List TaskId} (hs' : k'.Stacked st') :
    k'.FocusOnTop := by
  obtain ⟨-, hkey, hhalts, hcloses⟩ := hc
  have hent := k₀.quiet_entered l
  have hk := hent.toCalm.sound hk₀
  have hs := hent.toCalm.shaped hs₀
  have ha := hent.focusOnTop ha₀
  cases h with
  | quiet h => exact h.focusOnTop ha
  | vidmap t ht h =>
    rw [h]
    exact ha.of rfl rfl fun f _ => modifyTask_terminal _ _ f
      (f := fun t => { t with vidmapEnabled := true }) fun _ => rfl
  | lineRead h => exact h.toCalm.focusOnTop ha
  | readWaits nbytes term hb he hu h =>
    have hshape := readBegin_shape ((k₀.entered l).term (k₀.entered l).runningTask.terminal) nbytes
    rw [hb] at hshape
    exact h.focusOnTop (((calm_modifyTerm _ _ hshape).focusOnTop ha).asleep _ fun _ => rfl)
  | rtcWaits counter hu h => exact h.focusOnTop (ha.asleep _ fun _ => rfl)
  | yields k₁ hq h =>
    refine h.focusOnTop ((hq.focusOnTop ha).of ?_ ?_ fun f _ => ?_)
    all_goals unfold schedMoveRunningToLast; split <;> rfl
  | rtc k₁ wakeCount hl he h =>
    have ha₁ : k₁.FocusOnTop := by
      refine ha.of (by rw [rtcLoop_gui hl]) (rtcLoop_focus hl) fun f hf => ?_
      obtain ⟨t, ht⟩ := hs.stacked.focus f hf
      exact ((rtcLoop_kept hl).held f (hs.stacked.head ht).1).terminal
    rcases h with ⟨-, rfl⟩ | ⟨-, h⟩
    · exact ha₁
    · exact h.focusOnTop ha₁
  | key k₁ f kb kb' code term effect hf hp he h hw =>
    have hfocus₀ : k₀.focusTask = some f := by rw [← hent.focusTask, hf]
    have htarget : (k₀.entered l).keyTarget f effect = k₀.keyTarget f effect := by
      rw [keyTarget, keyTarget, hent.terminalFgTask]
    have ha₁ : k₁.FocusOnTop := by
      refine h.calm.focusOnTop fun t g htop hg => ?_
      obtain rfl : (k₀.entered l).keyTarget f effect = g := Option.some.inj hg
      rw [topWindow] at htop
      show ((k₀.entered l).task _).terminal = some t
      rw [(hent.core _).terminal, htarget, hkey effect he f hfocus₀]
      exact ha₀ t f (by rw [topWindow, ← hent.windowStack, htop]) hfocus₀
    rcases hw with ⟨-, rfl⟩ | ⟨-, -, hsched⟩
    · exact ha₁
    · exact hsched.focusOnTop (ha₁.keyWoken _)
  | raised g f hg hf h =>
    refine h.focusOnTop fun u y htop hfocus => ?_
    rcases hf with ⟨rfl, hstack⟩ | ⟨t, hin, rfl, hstack⟩
    · exact ha u y (by rw [topWindow, ← hstack]; exact htop) hfocus
    · -- the window of `t` is on top, and the focus is on the foreground task of `t`
      obtain rfl : t = u := Option.some.inj (hstack.symm.trans htop)
      have hid := hk.windowed.terminalId hin
      obtain ⟨wins, hholds, hmem, -⟩ := hk.windowed
      have ht : t ∈ wins := by
        by_contra hn
        rw [hholds.findWindowIdx_some, if_neg hn] at hin
        exact hin rfl
      have hne := (hs.stacked.term t).mp ((hmem t).mp ht)
      obtain ⟨z, hz⟩ := Option.ne_none_iff_exists'.mp (mt List.head?_eq_none_iff.mp hne)
      change ((k₀.entered l).terminalFgTask ((k₀.entered l).term (some t)).win.terminalId).or _
        = some y at hfocus
      rw [hid, hs.stacked.fg, hz] at hfocus
      obtain rfl : z = y := Option.some.inj hfocus
      exact (hs.stacked.head hz).2
  | refused k₁ k₂ hq h hq' =>
    refine hq'.focusOnTop ((hq.focusOnTop ha).of (by rw [h.gui]) h.focusTask fun f hf => ?_)
    obtain ⟨t, ht⟩ := (hq.toCalm.shaped hs).stacked.focus f hf
    rw [h.task f ((hq.toCalm.shaped hs).stacked.head ht).1]
  | launched k₁ a x hx hq _ hl h =>
    have hk₁ := hq.toCalm.sound hk
    have ha₁ : k₁.UserCall a :=
      ((hent.kept.trans hq.kept).userCall hk₀.running).mpr (userCall_of_executes hx)
    obtain ⟨t, ht, -⟩ := launchTerminal_cases (hq.toCalm.shaped hs).stacked hk₁.taskCount_pos ha₁ h
      hk₁.running
    have hterm : (k'.task x).terminal = some t := h.terminal.trans ht
    have hvalid : (k'.term (some t)).valid = true :=
      (hs'.term t).mpr (List.ne_nil_of_mem ((hs'.member t x).mpr ⟨h.valid, hterm⟩))
    intro u f htop hf
    rw [topWindow, h.top hk₁.windowed t ht hvalid] at htop
    rw [h.focus hk₁.windowed, ht, if_neg (Option.some_ne_none t)] at hf
    obtain rfl : x = f := Option.some.inj hf
    rw [hterm, htop]
  | halted k₁ cause hcause hq h =>
    obtain ⟨t, ht⟩ := hs₀.halting_top hk₀ hr₀ hcause
    have hrun : k₁.running = k₀.running := by rw [hq.running, hent.running]
    have hp : k₁.PassesOn k₁.running := by
      rw [hrun]
      exact (hent.toCalm.trans hq.toCalm).passesOn (hhalts (by simp [hcause]))
    rw [← hrun] at ht
    have hs₁ := (hq.toCalm.shaped hs).stacked
    have hw₁ := (hq.toCalm.sound hk).windowed
    cases h with
    | toParent p k₂ hpar htorn h =>
      exact (htorn.focusOnTop hs₁ ht hw₁ hp (hq.focusOnTop ha)).of (by rw [h.gui]) h.focusTask
        fun f _ => by rw [h.task]
    | alone k₂ hpar htorn h hne =>
      exact h.focusOnTop (htorn.focusOnTop hs₁ ht hw₁ hp (hq.focusOnTop ha))
  | closed k₁ x hclose hq h =>
    obtain ⟨t, ht⟩ := closes_fg hclose
    rw [hs₀.stacked.fg] at ht
    exact h.focusOnTop (hq.toCalm.shaped hs).stacked ht (hq.toCalm.sound hk).windowed
      ((hent.toCalm.trans hq.toCalm).passesOn (hcloses x hclose)) (hq.focusOnTop ha)

/-! ## Runs -/

/-- Two shells are opened, and `Alt+F1` is pressed in the second one. -/
def altF1 : List Event :=
  firstTick ++ openShell ++ mousePacket 0x09 0 0 ++
    [.mouse 0x08 0 0, .keyboard 0x38, .resume, .resume, .keyboard 0x3B]

end Kernel

end AuroraOS
