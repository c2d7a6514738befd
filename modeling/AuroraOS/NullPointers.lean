/-
# Null pointers

Two places of the kernel follow a pointer that may be `NULL`: `tear_down_task` reads the
terminal of the focus task, and `rtc_interrupt_handler` the flags of a parent.  No other
part of a step does, so that a step is safe where these two are.
-/
import AuroraOS.Stacks

namespace AuroraOS

open Ring Machine

/-- A null pointer is followed. -/
def Fault.isNull : Fault → Bool
  | .nullParent => true
  | .nullFocus => true
  | _ => false

variable {e : Fault}

/-! ## Files, pages and terminals -/

theorem error_ne {α : Type} (he : e.isNull = true) {d : Fault} (hd : d.isNull = false) :
    (.error d : Except Fault α) ≠ .error e := by
  rintro ⟨⟩
  rw [he] at hd
  cases hd

theorem ok_ne {α : Type} (a : α) : (.ok a : Except Fault α) ≠ .error e := fun h => by cases h

theorem Paging.running_ne (he : e.isNull = true) (i : ℤ) : Paging.running i ≠ .error e := by
  unfold Paging.running
  split
  · exact ok_ne _
  · exact error_ne he rfl

theorem Paging.taskPagingDeallocate_ne (he : e.isNull = true) (p : Paging) (i : ℤ) :
    p.taskPagingDeallocate i ≠ .error e := by
  unfold taskPagingDeallocate
  split
  · exact ok_ne _
  · exact bind_ne_error (running_ne he i) fun _ _ => ok_ne _

theorem Paging.taskPagingSet_ne (he : e.isNull = true) (p : Paging) (i : ℤ) :
    p.taskPagingSet i ≠ .error e := by
  unfold taskPagingSet
  split
  · exact ok_ne _
  · exact bind_ne_error (running_ne he i) fun _ _ => ok_ne _

theorem rtcRefill_ne (he : e.isNull = true) (f : ℤ) : rtcRefill f ≠ .error e := by
  unfold rtcRefill
  split
  · exact error_ne he rfl
  · exact ok_ne _

theorem FileArray.systemWrite_ne (he : e.isNull = true) (fa : FileArray) (rtc : RtcControl) (fd : ℤ)
    (bufNull : Bool) (word : BitVec 32) (nbytes : ℤ) :
    fa.systemWrite rtc fd bufNull word nbytes ≠ .error e := by
  have hrtc : systemRtcWrite rtc bufNull word nbytes ≠ .error e := by
    unfold systemRtcWrite
    split
    · exact ok_ne _
    split
    · exact ok_ne _
    split
    · exact ok_ne _
    · exact bind_ne_error (rtcRefill_ne he _) fun _ _ => ok_ne _
  unfold systemWrite
  split
  · exact ok_ne _
  split
  · exact ok_ne _
  split
  · exact ok_ne _
  · exact hrtc
  · exact ok_ne _
  · exact ok_ne _

theorem FileArray.openEntry_ne (he : e.isNull = true) (fa : FileArray) (table : OpTable)
    (inode : ℕ) : fa.openEntry table inode ≠ .error e := by
  unfold openEntry
  split
  · exact ok_ne _
  · exact error_ne he rfl

theorem FileArray.systemOpen_ne (he : e.isNull = true) (fa : FileArray) (rtc : RtcControl)
    (img : FsImage) (filename : List UInt8) : fa.systemOpen rtc img filename ≠ .error e := by
  have hfile : fa.fileOpen img filename ≠ .error e := by
    unfold fileOpen
    split
    · exact ok_ne _
    · exact openEntry_ne he _ _ _
  have hrtc : fa.localRtcOpen rtc ≠ .error e :=
    bind_ne_error (openEntry_ne he _ _ _) fun _ _ => ok_ne _
  unfold systemOpen
  split
  · exact ok_ne _
  split
  · exact ok_ne _
  split
  · exact bind_ne_error hrtc fun _ _ => ok_ne _
  · exact bind_ne_error (openEntry_ne he _ _ _) fun _ _ => ok_ne _
  · exact bind_ne_error hfile fun _ _ => ok_ne _
  · exact ok_ne _

theorem Terminal.shiftKeyBuf_ne (he : e.isNull = true) (d : ℕ) : ∀ (n j : ℕ) (buf : ℕ → UInt8),
    shiftKeyBuf d n j buf ≠ .error e := by
  intro n
  induction n with
  | zero => exact fun _ _ => ok_ne _
  | succ n ih =>
    intro j buf
    unfold shiftKeyBuf
    split
    · exact ih _ _
    · exact error_ne he rfl

theorem Terminal.readEnd_ne (he : e.isNull = true) (t : Terminal) (i : ℕ) :
    t.readEnd i ≠ .error e := by
  unfold readEnd
  split
  · exact bind_ne_error (shiftKeyBuf_ne he _ _ _ _) fun _ _ => ok_ne _
  · exact error_ne he rfl

theorem Terminal.pressKey_ne (he : e.isNull = true) (t : Terminal) (kb : Keyboard) (code : ℕ) :
    t.pressKey kb code ≠ .error e := by
  unfold pressKey
  split
  · split
    · exact ok_ne _
    · exact error_ne he rfl
  split
  · exact ok_ne _
  split
  · exact ok_ne _
  split
  · exact ok_ne _
  split
  · split
    · exact ok_ne _
    · exact error_ne he rfl
  · exact ok_ne _

namespace Kernel

variable {k k' : Kernel} {img : FsImage} {noise : Noise} {l : Label} {x : TaskId}

/-! ## Switches -/

theorem taskFromNode_ne (he : e.isNull = true) (n : ListNode) : taskFromNode n ≠ .error e := by
  cases n with
  | head s => exact error_ne he rfl
  | item x => exact ok_ne _

theorem switchTo_ne (he : e.isNull = true) (k : Kernel) (x : TaskId) (v : BitVec 32) :
    k.switchTo x v ≠ .error e := by
  unfold switchTo
  split
  · exact ok_ne _
  · exact error_ne he rfl

theorem setTaskPage_ne (he : e.isNull = true) (k : Kernel) (x : TaskId) :
    k.setTaskPage x ≠ .error e := by
  unfold setTaskPage
  split
  · exact bind_ne_error (Paging.taskPagingSet_ne he _ _) fun _ _ => ok_ne _
  · exact ok_ne _

theorem schedLaunch_ne (he : e.isNull = true) (k : Kernel) (noise : Noise) :
    k.schedLaunchToCurrentHead noise ≠ .error e := by
  have hlaunch : ∀ (m : Kernel) (x : TaskId), m.launchTo x noise ≠ .error e := by
    intro m x
    unfold launchTo
    split
    · exact ok_ne _
    · exact bind_ne_error (setTaskPage_ne he _ _) fun _ _ => switchTo_ne he _ _ _
  unfold schedLaunchToCurrentHead
  split
  · exact ok_ne _
  refine bind_ne_error (taskFromNode_ne he _) fun x _ => ?_
  split
  · exact bind_ne_error (taskFromNode_ne he _) fun _ _ => hlaunch _ _
  · exact hlaunch _ _

/-! ## The end of a task -/

/-- While there is a terminal, a task has the focus. -/
def Focused (k : Kernel) : Prop := ∀ t, (k.term (some t)).valid = true → k.focusTask ≠ none

theorem Quiet.focused (h : Quiet k k') (hf : k.Focused) : k'.Focused := by
  intro t ht
  rw [h.focusTask]
  exact hf t ((h.term (some t)).valid.symm.trans ht)

theorem tearDownOwned_ne (t : TermId)
    (hread : ∀ m : Kernel, m.focusTask = k.focusTask → m.focusTerminal ≠ .error e) :
    k.tearDownOwned t ≠ .error e := by
  unfold tearDownOwned
  exact bind_ne_error (hread _ rfl) fun _ _ => ok_ne _

theorem tearDownShared_ne (he : e.isNull = true) (p : TaskId)
    (hread : ∀ m : Kernel, m.focusTask = k.focusTask → m.focusTerminal ≠ .error e) :
    k.tearDownShared p ≠ .error e := by
  unfold tearDownShared
  split
  · exact error_ne he rfl
  · exact bind_ne_error (hread _ rfl) fun _ _ => ok_ne _

/-- **`tear_down_task` finds a focus task**, whichever task it ends. -/
theorem tearDownTask_ne_nullFocus {st : TermId → List TaskId} (hs : k.Stacked st)
    (hf : k.Focused) (x : TaskId) : k.tearDownTask x ≠ .error .nullFocus := by
  unfold tearDownTask
  split
  · exact ok_ne _
  next hv =>
  have hxv : (k.task x).valid = true := by simpa using hv
  obtain ⟨τ, links, hlists, -, hrole, -⟩ := k.tearDownLists_eq x
  refine bind_ne_error ?_ fun _ _ => ok_ne _
  rw [hlists]
  -- a task with a terminal has it in common with the other tasks of a stack
  have hread : (k.task x).terminal ≠ none → ∀ m : Kernel, m.focusTask = k.focusTask →
      m.focusTerminal ≠ .error .nullFocus := by
    intro hne m hm
    obtain ⟨t, ht⟩ := Option.ne_none_iff_exists'.mp hne
    have hfocus := hf t ((hs.term t).mpr (List.ne_nil_of_mem ((hs.member t x).mpr ⟨hxv, ht⟩)))
    obtain ⟨f, hf⟩ := Option.ne_none_iff_exists'.mp hfocus
    unfold focusTerminal
    rw [hm, hf]
    exact ok_ne _
  unfold tearDownTerminal
  simp only [(hrole x).owner, (hrole x).terminal, (hrole x).parent]
  split
  · cases ht : (k.task x).terminal with
    | none => exact error_ne rfl rfl
    | some t => exact tearDownOwned_ne t (hread (by rw [ht]; simp))
  · cases hp : (k.task x).parent with
    | none => exact ok_ne _
    | some p =>
      refine tearDownShared_ne rfl p (hread fun hnone => ?_)
      have := hs.orphan x hxv ((hs.kernel x hxv).mpr hnone)
      rw [hp] at this
      cases this

/-- Ending a task, whatever quiet changes come first, does not stop with the fault `e`. -/
def EndsWithout (e : Fault) (k : Kernel) : Prop :=
  ∀ m x, Quiet k m → m.tearDownTask x ≠ .error e

theorem EndsWithout.quiet (h : k.EndsWithout e) (hq : Quiet k k') : k'.EndsWithout e :=
  fun m x hm => h m x (hq.trans hm)

theorem systemHalt_ne (he : e.isNull = true) (ht : k.EndsWithout e) (noise : Noise)
    (status : BitVec 32) : k.systemHalt noise status ≠ .error e := by
  unfold systemHalt
  simp only
  split
  · exact error_ne he rfl
  refine bind_ne_error (ht k _ (.refl k)) fun m _ => ?_
  split
  · exact bind_ne_error (Paging.taskPagingDeallocate_ne he _ _) fun _ _ =>
      bind_ne_error (setTaskPage_ne he _ _) fun _ _ => switchTo_ne he _ _ _
  · refine bind_ne_error (schedLaunch_ne he _ _) fun m _ => ?_
    split
    · exact error_ne he rfl
    · exact ok_ne _

theorem signalCheck_ne (he : e.isNull = true) (ht : k.EndsWithout e) (noise : Noise) :
    k.signalCheck noise ≠ .error e := by
  have hhalt : ∀ f status, (k.modifySignals k.running f).systemHalt noise status ≠ .error e :=
    fun f status => systemHalt_ne he (ht.quiet (k.quiet_modifySignals _ f)) noise status
  unfold signalCheck
  simp only
  split
  · exact ok_ne _
  split
  · split
    · unfold signalDefaultHandler
      split
      · exact hhalt _ _
      · exact hhalt _ _
      · exact hhalt _ _
      · exact ok_ne _
    · exact ok_ne _
  · exact error_ne he rfl

theorem guiHandleMouseRelease_ne (he : e.isNull = true) (ht : k.EndsWithout e) (img : FsImage)
    (noise : Noise) (x y : ℤ) : k.guiHandleMouseRelease img noise x y ≠ .error e := by
  have hrelease : Quiet k { k with gui := { k.gui with mousePressedOnTitle := false } } :=
    k.quiet_devices _ k.keyboard k.mouse rfl
  unfold guiHandleMouseRelease
  simp only
  split
  · unfold taskHaltTerminal
    split
    · exact ok_ne _
    split
    · exact systemHalt_ne he (ht.quiet hrelease) noise 255
    · exact ht _ _ hrelease
  · split
    · split <;> exact ok_ne _
    · exact ok_ne _

/-! ## Steps -/

theorem resumeFrame_ne (he : e.isNull = true) (ht : k.EndsWithout e) (noise : Noise) (f : Frame) :
    k.resumeFrame noise f ≠ .error e := by
  unfold resumeFrame
  split
  · exact ok_ne _
  · exact bind_ne_error (Terminal.readEnd_ne he _ _) fun _ _ => ok_ne _
  · exact ok_ne _
  · exact ok_ne _
  · exact ok_ne _
  · exact ok_ne _
  · split
    · exact ok_ne _
    · exact signalCheck_ne he ht noise

theorem pitInterruptHandler_ne (he : e.isNull = true) (k : Kernel) (noise : Noise) :
    k.pitInterruptHandler noise ≠ .error e := by
  unfold pitInterruptHandler
  split
  · exact ok_ne _
  unfold pitSchedule
  split
  · exact schedLaunch_ne he _ _
  simp only
  split
  · exact schedLaunch_ne he _ _
  · exact ok_ne _

theorem keyboardInterruptHandler_ne (he : e.isNull = true) (k : Kernel) (noise : Noise)
    (scanCode : UInt8) : k.keyboardInterruptHandler noise scanCode ≠ .error e := by
  have hwake : ∀ m : Kernel, m.focusTask ≠ none → m.wakeFocus noise ≠ .error e := by
    intro m hm
    obtain ⟨f, hf⟩ := Option.ne_none_iff_exists'.mp hm
    unfold wakeFocus
    rw [hf]
    exact schedLaunch_ne he _ _
  have hsend : ∀ (m : Kernel) s, (m.signalSend s).focusTask = m.focusTask :=
    fun m s => (m.quiet_signalSend s).focusTask
  have hchange : ∀ (m : Kernel) i, m.focusTask ≠ none → (m.taskChangeFocus i).focusTask ≠ none := by
    intro m i hm
    unfold taskChangeFocus
    split
    · rw [m.quiet_terminalFocusPrintf.focusTask]
      exact hm
    · exact Option.some_ne_none _
  unfold keyboardInterruptHandler handleScanCode
  simp only
  split
  · exact ok_ne _
  split
  · exact ok_ne _
  next f hf =>
  refine bind_ne_error (Terminal.pressKey_ne he _ _ _) fun r _ => ?_
  obtain ⟨kb, term, effect⟩ := r
  simp only
  split
  · refine hwake _ ?_
    have hfocus : ∀ m : Kernel, m.focusTask = some f →
        (if effect.interrupt then m.signalSend signalInterrupt else m).focusTask ≠ none := by
      intro m hm
      split
      · rw [hsend, hm]
        exact Option.some_ne_none f
      · rw [hm]
        exact Option.some_ne_none f
    split
    · exact hfocus _ hf
    · exact hchange _ _ (hfocus _ hf)
  · exact ok_ne _

theorem systemRead_ne (he : e.isNull = true) (k : Kernel) (img : FsImage) (noise : Noise) (fd : ℤ)
    (bufNull : Bool) (nbytes : ℤ) : k.systemRead img noise fd bufNull nbytes ≠ .error e := by
  have hend : ∀ (m : Kernel) i, m.terminalReadEnd i ≠ .error e := fun m i =>
    bind_ne_error (Terminal.readEnd_ne he _ _) fun _ _ => ok_ne _
  unfold systemRead
  split
  · exact ok_ne _
  · unfold systemTerminalRead
    simp only
    split
    · exact hend _ _
    · exact schedLaunch_ne he _ _
  · unfold systemRtcRead
    split
    · exact ok_ne _
    · exact bind_ne_error (rtcRefill_ne he _) fun _ _ => schedLaunch_ne he _ _

theorem userStep_ne (he : e.isNull = true) (ht : k.EndsWithout e) (img : FsImage) (noise : Noise)
    (ev : Event) : k.userStep img noise ev ≠ .error e := by
  unfold userStep
  split
  · exact ok_ne _
  · exact systemHalt_ne he (ht.quiet k.quiet_enterSystemCall) noise _
  · exact systemRead_ne he _ img noise _ _ _
  · exact bind_ne_error (FileArray.systemWrite_ne he _ _ _ _ _ _) fun _ _ => ok_ne _
  · exact bind_ne_error (FileArray.systemOpen_ne he _ _ _ _) fun _ _ => ok_ne _
  · exact ok_ne _
  · exact ok_ne _
  · exact ok_ne _
  · exact ok_ne _
  · exact ok_ne _
  · exact ok_ne _
  · exact error_ne he rfl

/-- **A step follows a null pointer** only at the end of a task, or in the handler of the RTC. -/
theorem step_ne (he : e.isNull = true) (ht : k.EndsWithout e)
    (hr : k.runningTask.kstack = [] → l.event = .rtc →
      k.enterInterrupt.rtcInterruptHandler l.noise ≠ .error e) :
    k.step img l ≠ .error e := by
  have htint := ht.quiet k.quiet_enterInterrupt
  unfold step
  split
  · exact resumeFrame_ne he (ht.quiet k.quiet_pop) _ _
  · exact error_ne he rfl
  · exact error_ne he rfl
  · exact pitInterruptHandler_ne he _ _
  · next hstack hev => exact hr hstack hev
  · exact keyboardInterruptHandler_ne he _ _ _
  · unfold mouseInterruptHandler
    split
    · exact ok_ne _
    split
    · exact ok_ne _
    split
    · exact ok_ne _
    simp only
    split
    · exact ok_ne _
    split
    · exact guiHandleMouseRelease_ne he (htint.quiet (quiet_push _ rfl)) _ _ _ _
    · exact ok_ne _
  · split
    · exact schedLaunch_ne he _ _
    · exact error_ne he rfl
  · split
    · exact error_ne he rfl
    · exact userStep_ne he ht img _ _

/-- Ending a task never follows a parent pointer that is `NULL`. -/
theorem endsWithout_nullParent (k : Kernel) : k.EndsWithout .nullParent := by
  intro m x _
  have hfocus : ∀ m : Kernel, m.focusTerminal ≠ .error .nullParent := by
    intro m
    unfold focusTerminal
    split
    · exact fun h => by cases h
    · exact ok_ne _
  unfold tearDownTask
  split
  · exact ok_ne _
  refine bind_ne_error ?_ fun _ _ => ok_ne _
  unfold tearDownTerminal
  split
  · split
    · exact error_ne rfl rfl
    · exact tearDownOwned_ne _ fun m _ => hfocus m
  · split
    · exact ok_ne _
    · exact tearDownShared_ne rfl _ fun m _ => hfocus m

/-- The handler of the RTC does not look at the focus. -/
theorem rtcInterruptHandler_ne_nullFocus (k : Kernel) (noise : Noise) :
    k.rtcInterruptHandler noise ≠ .error .nullFocus := by
  have htick : ∀ (m : Kernel) w x, m.rtcTick w x ≠ .error .nullFocus := by
    intro m w x
    unfold rtcTick
    simp only
    split
    · split
      · exact fun h => by cases h
      · exact ok_ne _
    · exact ok_ne _
  have hloop : ∀ n (m : Kernel) w node, rtcLoop n m w node ≠ .error .nullFocus := by
    intro n
    induction n with
    | zero =>
      intro m w node
      unfold rtcLoop
      split
      · exact ok_ne _
      · exact error_ne rfl rfl
    | succ n ih =>
      intro m w node
      unfold rtcLoop
      split
      · exact ok_ne _
      · exact bind_ne_error (taskFromNode_ne rfl _) fun x _ =>
          bind_ne_error (htick _ _ _) fun _ _ => ih _ _ _
  unfold rtcInterruptHandler
  refine bind_ne_error (hloop _ _ _ _) fun r _ => ?_
  simp only
  split
  · exact schedLaunch_ne rfl _ _
  · exact ok_ne _

end Kernel

end AuroraOS
