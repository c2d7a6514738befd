/-
# Dragging a window

A press on the title bar of a window sets `mouse_pressed_on_title`, and every movement of
the mouse before the next release moves a window: the one that is on top then.  It is the
pressed one as long as no other window comes to the top in between.
-/
import AuroraOS.ButtonEdges

namespace AuroraOS

open Machine

namespace Kernel

variable {k k' : Kernel} {img : FsImage} {noise : Noise} {l : Label} {x : TaskId} {t u : TermId}

/-! ## The statement -/

/-- The window on top. -/
def topWindow (k : Kernel) : Option TermId := k.gui.windowStack.headD none

/-- The index in `window_stack` of the window under the cursor. -/
def hitIndex (k : Kernel) : Option ℕ :=
  k.gui.windowStack.findIdx? fun win =>
    k.checkInsideWindow k.mouse.x k.mouse.y win ≠ .notInWindow

/-- The window whose title bar is pressed in this step. -/
def titlePressed (k : Kernel) (l : Label) : Option TermId :=
  if k.pressCalled l then
    k.hitIndex.bind fun i => (k.gui.windowStack.getD i none).filter fun t =>
      k.checkInsideWindow k.mouse.x k.mouse.y (some t) = .inTitleBar
  else none

/-- `gui_handle_mouse_move` is called in this step. -/
def moveCalled (k : Kernel) (l : Label) : Bool :=
  match k.runningTask.kstack, l.event with
  | .mouseTail _ _ _ :: _, .resume => true
  | _, _ => false

/-- **A drag moves only the window that was pressed**: a window that moves between a press on
the title bar of `t` and the next release is that of `t`, and it has been on the stack all the
time. -/
def DragsPressed (img : FsImage) (labels : List Label) : Prop :=
  ∀ pre press mid move post k₀ k₁ k₂ k₃ t u,
    labels = pre ++ press :: mid ++ move :: post →
    run (fun k l => k.step img l) start pre = .ok k₀ →
    k₀.titlePressed press = some t →
    k₀.step img press = .ok k₁ →
    run (fun k l => k.step img l) k₁ mid = .ok k₂ →
    countSteps (fun k l => k.step img l) releaseCalled k₁ mid = 0 →
    k₂.moveCalled move = true →
    k₂.step img move = .ok k₃ →
    (k₃.term (some u)).win ≠ (k₂.term (some u)).win →
    u = t ∧ ∀ before after k, mid = before ++ after →
      run (fun k l => k.step img l) k₁ before = .ok k → some t ∈ k.gui.windowStack

/-- A program that this step starts on the terminal of its parent has the window on top. -/
def StartsOnTop (img : FsImage) (k : Kernel) (l : Label) : Prop :=
  ∀ a ∈ k.executes l, a.newTerminal = false → (k.entered l).Launches img a l.noise →
    ∀ t ∈ k.runningTask.terminal, some t ∈ k.gui.windowStack → k.topWindow = some t

/-- A task that halts in this step owns no window on top of another one. -/
def EndsUnderTop (k : Kernel) (l : Label) : Prop :=
  ∀ cause ∈ k.halts l, cause ≠ .window → k.runningTask.flags.terminalOwner = true →
    k.runningTask.terminal = k.topWindow → k.gui.windowStack.getD 1 none = none

/-- A window that is pressed in this step is on top. -/
def PressesTop (k : Kernel) (l : Label) : Prop := k.pressCalled l = true → ∀ i ∈ k.hitIndex, i = 0

instance (img : FsImage) (k : Kernel) (l : Label) : Decidable (k.StartsOnTop img l) :=
  inferInstanceAs (Decidable (∀ a ∈ k.executes l, _ → _ → ∀ t ∈ k.runningTask.terminal, _ → _))

instance (k : Kernel) (l : Label) : Decidable (k.EndsUnderTop l) :=
  inferInstanceAs (Decidable (∀ cause ∈ k.halts l, _ → _ → _ → _))

instance (k : Kernel) (l : Label) : Decidable (k.PressesTop l) :=
  inferInstanceAs (Decidable (_ → ∀ i ∈ k.hitIndex, _))

/-- While a window is dragged, this step brings no other one to the top. -/
def KeepsTop (img : FsImage) (k : Kernel) (l : Label) : Prop :=
  k.gui.mousePressedOnTitle = true → k.StartsOnTop img l ∧ k.EndsUnderTop l ∧ k.PressesTop l

instance (img : FsImage) (k : Kernel) (l : Label) : Decidable (k.KeepsTop img l) :=
  inferInstanceAs (Decidable (_ → _ ∧ _ ∧ _))

/-! ## What stays on top -/

/-- The window of `t` is dragged, or there is no window left. -/
structure Dragging (t : TermId) (k : Kernel) : Prop where
  pressed : k.gui.mousePressedOnTitle = true
  top : k.topWindow = some t ∨ k.topWindow = none

/-- **The drag goes on** from one kernel to the next, and no window comes up. -/
structure DragsOn (k k' : Kernel) : Prop where
  pressed : k'.gui.mousePressedOnTitle = k.gui.mousePressedOnTitle
  top : k'.topWindow = k.topWindow ∨ k'.topWindow = none

theorem DragsOn.dragging (h : DragsOn k k') (hd : k.Dragging t) : k'.Dragging t := by
  refine ⟨h.pressed.trans hd.pressed, ?_⟩
  rcases h.top with ht | ht
  · rw [ht]
    exact hd.top
  · exact Or.inr ht

theorem DragsOn.trans {k'' : Kernel} (h : DragsOn k k') (h' : DragsOn k' k'') : DragsOn k k'' := by
  refine ⟨h'.pressed.trans h.pressed, ?_⟩
  rcases h'.top with ht | ht
  · rw [ht]
    exact h.top
  · exact Or.inr ht

theorem dragsOn_of_gui (hp : k'.gui.mousePressedOnTitle = k.gui.mousePressedOnTitle)
    (hs : k'.gui.windowStack = k.gui.windowStack) : DragsOn k k' :=
  ⟨hp, Or.inl (by rw [topWindow, topWindow, hs])⟩

theorem entered_gui (k : Kernel) (l : Label) : (k.entered l).gui = k.gui := by
  unfold entered
  split <;> rfl

theorem mouseTail_gui (k : Kernel) (flags dx dy : UInt8) :
    (k.mouseTail flags dx dy).gui = k.gui := by
  show (k.guiHandleMouseMove _ _).1.gui = _
  unfold guiHandleMouseMove
  split
  · rfl
  · split
    · rfl
    · simp only [apply_ite Prod.fst]
      split <;> rfl

/-- The top of the stack without one of its windows. -/
theorem destroyWindow_top {g : Gui} {wins : List TermId} (h : g.Holds wins) (u : TermId)
    (hlast : g.windowStack.headD none = some u → g.windowStack.getD 1 none = none) :
    (g.destroyWindow u).windowStack.headD none = g.windowStack.headD none ∨
      (g.destroyWindow u).windowStack.headD none = none := by
  rw [(h.destroyWindow u).top, h.top]
  rw [h.top, h.stack] at hlast
  cases wins with
  | nil => exact Or.inl rfl
  | cons t wins =>
    by_cases hu : t = u
    · subst hu
      have hnil : wins = [] := by
        cases wins with
        | nil => rfl
        | cons v wins => cases hlast rfl
      rw [hnil, List.erase_cons_head]
      exact Or.inr rfl
    · rw [List.erase_cons_tail (by simpa using hu)]
      exact Or.inl rfl

theorem destroyWindow_title (g : Gui) (u : TermId) :
    (g.destroyWindow u).mousePressedOnTitle = g.mousePressedOnTitle := by
  unfold Gui.destroyWindow
  split <;> rfl

/-! ## The steps of a drag -/

theorem buttonEdge_packet {flags dx dy : UInt8} (hstack : k.runningTask.kstack = [])
    (he : l.event = .mouse flags dx dy) (haccept : packetAccepted flags = true) :
    k.buttonEdge l = some (leftButton k.mouse.lastFlags, leftButton flags) := by
  simp [buttonEdge, accepts, hstack, he, haccept]

/-- A press on the window on top, or on no window, raises none. -/
theorem guiHandleMousePress_dragsOn (hp : k.gui.mousePressedOnTitle = true)
    (hi : ∀ i ∈ k.hitIndex, i = 0) : DragsOn k (k.guiHandleMousePress k.mouse.x k.mouse.y) := by
  unfold guiHandleMousePress
  split
  · split
    · exact dragsOn_of_gui rfl rfl
    · exact dragsOn_of_gui rfl rfl
  · next i hfind =>
    obtain rfl : i = 0 := hi i hfind
    simp only
    split
    · exact dragsOn_of_gui hp.symm rfl
    · exact dragsOn_of_gui rfl rfl

theorem packet_dragsOn {flags dx dy : UInt8} (hstack : k.runningTask.kstack = [])
    (he : l.event = .mouse flags dx dy) (hp : k.gui.mousePressedOnTitle = true)
    (hc : k.PressesTop l) (hr : k.releaseCalled l = false)
    (h : k.enterInterrupt.mouseInterruptHandler img noise flags dx dy = .ok k') :
    DragsOn k k' := by
  rcases mouseInterruptHandler_cases h with
    ⟨-, rfl⟩ | ⟨haccept, ⟨hlast, hflags, rfl⟩ | ⟨hlast, hflags, -⟩ | ⟨-, rfl⟩⟩
  · exact dragsOn_of_gui rfl rfl
  · have hedge := buttonEdge_packet hstack he haccept
    have hlast' : leftButton k.mouse.lastFlags = false := hlast
    have hpress : k.pressCalled l = true := by rw [pressCalled, hedge, hlast', hflags]; rfl
    obtain ⟨htitle, htop⟩ := guiHandleMousePress_dragsOn
      (k := k.enterInterrupt.push (.mouseTail flags dx dy)) hp (hc hpress)
    exact ⟨htitle, htop⟩
  · have hedge := buttonEdge_packet hstack he haccept
    have hlast' : leftButton k.mouse.lastFlags = true := hlast
    rw [releaseCalled, hedge, hlast', hflags] at hr
    cases hr
  · exact dragsOn_of_gui rfl rfl

/-- A program on the terminal of its parent brings up the window that is on top, or none. -/
theorem executed_dragsOn {a : ExecuteArgs} (hw : k.Windowed) (ha : k.executes l = some a)
    (hn : a.newTerminal = false) (hl : (k.entered l).Launches img a l.noise)
    (hc : k.StartsOnTop img l)
    (hgui : k'.gui = activated k.gui ((k.entered l).launchTerminal a)) : DragsOn k k' := by
  have htitle : k'.gui.mousePressedOnTitle = k.gui.mousePressedOnTitle := by
    rw [hgui, activated_title]
  refine ⟨htitle, Or.inl ?_⟩
  rw [topWindow, hgui]
  cases ht : (k.entered l).launchTerminal a with
  | none => rfl
  | some t =>
    obtain ⟨wins, hholds, -, -⟩ := hw
    rw [activated_top hholds]
    have hrun : k.runningTask.terminal = some t := by
      have hsame : (k.entered l).runningTask.terminal = k.runningTask.terminal := by
        rw [runningTask, (k.quiet_entered l).running]
        exact ((k.quiet_entered l).core k.running).terminal
      rw [← hsame]
      unfold launchTerminal at ht
      rw [hn] at ht
      split at ht
      · cases ht
      split at ht
      · next h => cases h
      split at ht
      · cases ht
      · exact ht
    by_cases hmem : t ∈ wins
    · rw [if_pos hmem]
      have hon : some t ∈ k.gui.windowStack := (hholds.mem_windowStack t).mpr hmem
      exact (hc a ha hn hl t hrun hon).symm
    · rw [if_neg hmem]
      rfl

/-- The end of a task takes its own window away, which is not on top of another one. -/
theorem TornDown.dragsOn (h : TornDown x k k') (hw : k.Windowed)
    (hc : (k.task x).flags.terminalOwner = true → (k.task x).terminal = k.topWindow →
      k.gui.windowStack.getD 1 none = none) : DragsOn k k' := by
  cases ho : (k.task x).flags.terminalOwner with
  | false =>
    obtain ⟨-, -, hgui, -⟩ := h.shared ho
    exact dragsOn_of_gui (by rw [hgui]) (by rw [hgui])
  | true =>
    obtain ⟨t, ht, -, -, -, -, hgui⟩ := h.owned ho
    obtain ⟨wins, hholds, -, -⟩ := hw
    refine ⟨by rw [hgui, destroyWindow_title], ?_⟩
    rw [topWindow, topWindow, hgui]
    exact destroyWindow_top hholds t fun htop => hc ho (ht.trans htop.symm)

/-- **One step of a drag** in which the button is not released. -/
theorem Pointed.dragsOn (h : Pointed img k l k') (hk : k.Sound)
    (hp : k.gui.mousePressedOnTitle = true) (hc : k.KeepsTop img l)
    (hr : k.releaseCalled l = false) : DragsOn k k' := by
  obtain ⟨hstart, hend, hpress⟩ := hc hp
  cases h with
  | still hf h =>
    exact dragsOn_of_gui (by rw [h.title, entered_gui]) (by rw [h.windowStack, entered_gui])
  | packet flags dx dy hstack he h => exact packet_dragsOn hstack he hp hpress hr h
  | tail flags dx dy fs hstack he h =>
    rw [h]
    exact dragsOn_of_gui (by rw [mouseTail_gui]; rfl) (by rw [mouseTail_gui]; rfl)
  | executed a x ha hn hstack hl h hmouse hgui =>
    exact executed_dragsOn hk.windowed ha hn hl hstart hgui
  | halted k₁ cause hc hw hk₁ hq h hmouse =>
    have hsame : DragsOn k k₁ := dragsOn_of_gui (by rw [hk₁.title, entered_gui]) hq.windowStack
    have hrole := hq.core k.running
    have hown : (k₁.task k₁.running).flags.terminalOwner = true →
        (k₁.task k₁.running).terminal = k₁.topWindow → k₁.gui.windowStack.getD 1 none = none := by
      intro ho ht
      rw [hq.running, hrole.flags] at ho
      rw [hq.running, hrole.terminal, topWindow, hq.windowStack] at ht
      rw [hq.windowStack]
      exact hend cause hc hw ho ht
    have hwindowed := (hq.toCalm.sound hk).windowed
    cases h with
    | toParent p k₂ hpar htorn h =>
      have htorn' := htorn.dragsOn hwindowed hown
      exact hsame.trans (htorn'.trans (dragsOn_of_gui (by rw [h.gui]) (by rw [h.gui])))
    | alone k₂ hpar htorn h hne =>
      have htorn' := htorn.dragsOn hwindowed hown
      exact hsame.trans (htorn'.trans (dragsOn_of_gui (by rw [h.gui]) (by rw [h.gui])))

/-- What is known of a step that calls `gui_handle_mouse_press`. -/
theorem pressCalled_packet (h : k.pressCalled l = true) :
    ∃ flags dx dy, k.runningTask.kstack = [] ∧ l.event = .mouse flags dx dy ∧
      packetAccepted flags = true ∧ leftButton k.mouse.lastFlags = false ∧
        leftButton flags = true := by
  have hedge : k.buttonEdge l = some (false, true) := of_decide_eq_true h
  obtain ⟨flags, haccepts, hbits⟩ := Option.map_eq_some_iff.mp hedge
  rw [Prod.mk.injEq] at hbits
  unfold accepts at haccepts
  split at haccepts
  · next flags' dx dy hstack he =>
    split at haccepts
    · next haccept =>
      cases haccepts
      exact ⟨flags, dx, dy, hstack, he, haccept, hbits.1, hbits.2⟩
    · cases haccepts
  · cases haccepts

theorem titlePressed_some (h : k.titlePressed l = some t) :
    k.pressCalled l = true ∧ ∃ i, k.hitIndex = some i ∧ k.gui.windowStack.getD i none = some t ∧
      k.checkInsideWindow k.mouse.x k.mouse.y (some t) = .inTitleBar := by
  unfold titlePressed at h
  split at h
  · next hpress =>
    obtain ⟨i, hi, ht⟩ := Option.bind_eq_some_iff.mp h
    obtain ⟨ht, htitle⟩ := Option.filter_eq_some_iff.mp ht
    exact ⟨hpress, i, hi, ht, of_decide_eq_true htitle⟩
  · cases h

/-- A press on a title bar brings the window to the top. -/
theorem guiHandleMousePress_dragging {i : ℕ} (hw : k.Windowed) (hi : k.hitIndex = some i)
    (ht : k.gui.windowStack.getD i none = some t)
    (htitle : k.checkInsideWindow k.mouse.x k.mouse.y (some t) = .inTitleBar) :
    (k.guiHandleMousePress k.mouse.x k.mouse.y).Dragging t := by
  have hi' : k.gui.windowStack.findIdx? (fun win =>
      k.checkInsideWindow k.mouse.x k.mouse.y win ≠ .notInWindow) = some i := hi
  unfold guiHandleMousePress
  simp only [hi', ht, htitle, if_true]
  refine ⟨rfl, Or.inl ?_⟩
  cases i with
  | zero =>
    show k.gui.windowStack.headD none = some t
    cases hstack : k.gui.windowStack with
    | nil =>
      rw [hstack] at ht
      cases ht
    | cons win wins =>
      rw [hstack] at ht
      exact ht
  | succ i =>
    obtain ⟨wins, hholds, -, -⟩ := hw
    have hmem : t ∈ wins := by
      rw [← hholds.mem_windowStack]
      by_cases hlt : i + 1 < k.gui.windowStack.length
      · rw [List.getD_eq_getElem _ _ hlt] at ht
        exact ht ▸ List.getElem_mem hlt
      · rw [List.getD_eq_default _ _ (not_lt.mp hlt)] at ht
        cases ht
    show (k.guiActivateWindow t).gui.windowStack.headD none = some t
    rw [guiActivateWindow_gui, activated_top hholds, if_pos hmem]

theorem press_dragging (hk : k.Sound) (hp : k.titlePressed l = some t)
    (h : k.step img l = .ok k') : k'.Dragging t := by
  obtain ⟨hpress, i, hi, ht, htitle⟩ := titlePressed_some hp
  obtain ⟨flags, dx, dy, -, he, haccept, hlast, hflags⟩ := pressCalled_packet hpress
  obtain ⟨-, hrun⟩ := step_mouse_eq he h
  rcases mouseInterruptHandler_cases hrun with
    ⟨hdrop, -⟩ | ⟨-, ⟨-, -, rfl⟩ | ⟨hlast', -, -⟩ | ⟨hsame, -⟩⟩
  · rw [haccept] at hdrop
    cases hdrop
  · have hsound : (k.enterInterrupt.push (.mouseTail flags dx dy)).Sound :=
      (k.quiet_enterInterrupt.trans (quiet_push _ rfl)).toCalm.sound hk
    exact guiHandleMousePress_dragging (k := k.enterInterrupt.push (.mouseTail flags dx dy))
      hsound.windowed hi ht htitle
  · have hlast'' : leftButton k.mouse.lastFlags = true := hlast'
    rw [hlast] at hlast''
    cases hlast''
  · have hsame' : leftButton k.mouse.lastFlags = leftButton flags := hsame
    rw [hlast, hflags] at hsame'
    cases hsame'

/-- `gui_handle_mouse_move` moves the window on top. -/
theorem mouseTail_moves {flags dx dy : UInt8}
    (h : ((k.mouseTail flags dx dy).term (some u)).win ≠ (k.term (some u)).win) :
    k.topWindow = some u := by
  revert h
  show ((k.guiHandleMouseMove _ _).1.term (some u)).win ≠ _ → _
  unfold guiHandleMouseMove
  split
  · exact fun h => absurd rfl h
  · split
    · exact fun h => absurd rfl h
    · next t ht =>
      simp only [apply_ite Prod.fst]
      split
      · intro h
        by_contra hne
        have hut : some u ≠ some t := fun he => hne (ht.trans he.symm)
        rw [modifyTerm_term, Function.update_of_ne hut] at h
        exact h rfl
      · exact fun h => absurd rfl h

theorem move_moves (hm : k.moveCalled l = true) (h : k.step img l = .ok k')
    (hu : (k'.term (some u)).win ≠ (k.term (some u)).win) : k.topWindow = some u := by
  unfold moveCalled at hm
  split at hm
  · next flags dx dy fs hstack he =>
    unfold step at h
    simp only [hstack, he] at h
    cases h
    have htop : k.pop.topWindow = some u := mouseTail_moves (k := k.pop) hu
    exact htop
  · cases hm

/-! ## The whole drag -/

/-- **A drag.**  From the press to the move the window of `t` stays on top, or all windows go. -/
theorem run_dragging (mid : List Label) : ∀ {k k₂ : Kernel}, k.Sound → k.Dragging t →
    Meets (fun k l => k.step img l) (KeepsTop img) k mid →
    countSteps (fun k l => k.step img l) releaseCalled k mid = 0 →
    run (fun k l => k.step img l) k mid = .ok k₂ →
    k₂.Sound ∧ k₂.Dragging t ∧ (k₂.topWindow = some t → ∀ before after k', mid = before ++ after →
      run (fun k l => k.step img l) k before = .ok k' → k'.topWindow = some t) := by
  induction mid with
  | nil =>
    intro k k₂ hk hd _ _ h
    cases h
    refine ⟨hk, hd, fun htop before after k' hmid hb => ?_⟩
    obtain ⟨rfl, -⟩ := List.append_eq_nil_iff.mp hmid.symm
    cases hb
    exact htop
  | cons l mid ih =>
    intro k k₂ hk hd hm hno h
    obtain ⟨k₁, hstep, hrun⟩ := run_cons_ok.mp h
    rw [countSteps_cons mid hstep] at hno
    have hr : k.releaseCalled l = false := by
      by_contra hcalled
      rw [Bool.not_eq_false] at hcalled
      rw [if_pos hcalled] at hno
      omega
    have hon := (step_pointed hk hstep).dragsOn hk hd.pressed hm.1 hr
    obtain ⟨hk₂, hd₂, hstay⟩ := ih (step_sound hk hstep) (hon.dragging hd) (hm.2 k₁ hstep)
      (by omega) hrun
    refine ⟨hk₂, hd₂, fun htop before after k' hmid hb => ?_⟩
    cases before with
    | nil =>
      cases hb
      -- a window that is on top in the end has not come up since
      have htop₁ := hstay htop [] mid k₁ rfl rfl
      rcases hon.top with he | he
      · rw [← he, htop₁]
      · rw [htop₁] at he
        cases he
    | cons b before =>
      rw [List.cons_append, List.cons.injEq] at hmid
      obtain ⟨rfl, hmid⟩ := hmid
      obtain ⟨k₁', hstep', hb⟩ := run_cons_ok.mp hb
      obtain rfl : k₁ = k₁' := Except.ok.inj (hstep.symm.trans hstep')
      exact hstay htop before after k' hmid hb

/-- The shell runs out of time, and the init task finishes its packet. -/
def backToInit : List Event :=
  [.pit, .resume, .pit, .resume, .pit, .resume, .pit, .resume, .pit, .resume, .resume, .resume]

/-- The cursor goes to the title bar of the only window, and the window is dragged. -/
def dragShell : List Event :=
  firstTick ++ openShell ++ backToInit ++ mousePacket 0x38 36 236 ++ mousePacket 0x18 41 0 ++
    mousePacket 0x09 0 0 ++ [.mouse 0x09 5 0, .resume]

/-- Two shells are started; the one in the background runs again, and the cursor goes to the
title bar of the window on top. -/
def aimAtTop : List Event :=
  firstTick ++ openShell ++ backToInit ++ mousePacket 0x09 0 0 ++ [.mouse 0x08 0 0] ++ backToInit ++
    [.yield, .resume] ++ mousePacket 0x38 36 186 ++ mousePacket 0x18 41 0

/-- The shell in the background starts `cat` while the window is dragged. -/
def catInBackground : List Event := [.resume, .resume, .execute catCommand, .mouse 0x09 5 0]

/-- The label of this event in such a run. -/
def labelled (e : Event) : Label := { event := e, noise := { eax := 7, stack := fun _ => 0 } }

end Kernel

end AuroraOS
