/-
# The edges of the left button

`mouse_interrupt_handler` calls `gui_handle_mouse_press` and `gui_handle_mouse_release` on
the edges of the left button, which it finds by comparing a packet with `last_flags`.
`last_flags` is stored at the end of the handler, so the comparison is with the packet
before only if that packet has been finished.
-/
import AuroraOS.Pointer

namespace AuroraOS

open Machine

/-! ## Edges -/

/-- How often a bit goes from `e.1` to `e.2`, when it starts as `b`. -/
def edges (e : Bool × Bool) (b : Bool) (bs : List Bool) : ℕ := ((b :: bs).zip bs).count e

theorem edges_cons (e : Bool × Bool) (b c : Bool) (bs : List Bool) :
    edges e b (c :: bs) = (if (b, c) = e then 1 else 0) + edges e c bs := by
  rw [edges, List.zip_cons_cons, List.count_cons, Nat.add_comm, edges]
  simp

/-- The left button in a packet that `mouse_interrupt_handler` accepts. -/
def acceptedButton (l : Label) : Option Bool :=
  match l.event with
  | .mouse flags _ _ =>
    if Kernel.packetAccepted flags then some (Kernel.leftButton flags) else none
  | _ => none

/-! ## Packets on a kernel stack -/

/-- No packet is left behind the way back to the program. -/
def Orderly (fs : List Frame) : Prop :=
  fs.Pairwise fun f g => f = .signalCheck → g.isMouseTail = false

/-- The same packets wait on both stacks. -/
structure SamePackets (fs gs : List Frame) : Prop where
  orderly : Orderly fs → Orderly gs
  packets : ∀ f, f.isMouseTail = true → (f ∈ gs ↔ f ∈ fs)

theorem SamePackets.refl (fs : List Frame) : SamePackets fs fs := ⟨id, fun _ _ => Iff.rfl⟩

theorem SamePackets.trans {fs gs hs : List Frame} (h : SamePackets fs gs) (h' : SamePackets gs hs) :
    SamePackets fs hs :=
  ⟨h'.orderly ∘ h.orderly, fun f hf => (h'.packets f hf).trans (h.packets f hf)⟩

theorem isMouseTail_of_plain {f : Frame} (h : f.plain = true) : f.isMouseTail = false := by
  cases f with
  | mouseTail flags dx dy => cases h
  | _ => rfl

theorem SamePackets.push {f : Frame} (hf : f.plain = true) (fs : List Frame) :
    SamePackets fs (f :: fs) := by
  constructor
  · intro ho
    refine List.pairwise_cons.mpr ⟨fun g _ hs => ?_, ho⟩
    rw [hs] at hf
    cases hf
  · intro g hg
    rw [List.mem_cons]
    refine or_iff_right ?_
    rintro rfl
    rw [isMouseTail_of_plain hf] at hg
    cases hg

/-- A frame that is no packet is left. -/
theorem SamePackets.pop {f : Frame} (hf : f.isMouseTail = false) (fs : List Frame) :
    SamePackets (f :: fs) fs := by
  refine ⟨fun ho => (List.pairwise_cons.mp ho).2, fun g hg => ?_⟩
  rw [List.mem_cons]
  refine (or_iff_right ?_).symm
  rintro rfl
  rw [hf] at hg
  cases hg

theorem Onto.samePackets {fs gs : List Frame} (h : Onto fs gs) : SamePackets fs gs := by
  obtain ⟨pre, hpre, rfl⟩ := h
  induction pre with
  | nil => exact .refl fs
  | cons f pre ih =>
    have hrest := ih fun g hg => hpre g (List.mem_cons_of_mem f hg)
    exact hrest.trans (.push (hpre f List.mem_cons_self) _)

/-- The way back to the program has no packet behind it. -/
theorem Orderly.signalCheck {fs : List Frame} (h : Orderly (.signalCheck :: fs)) :
    ∀ f ∈ fs, f.isMouseTail = false := fun f hf => (List.pairwise_cons.mp h).1 f hf rfl

namespace Kernel

variable {k k' : Kernel} {img : FsImage} {noise : Noise} {l : Label} {x : TaskId} {b : Bool}

/-! ## The statement -/

/-- The packet that `mouse_interrupt_handler` accepts in this step. -/
def accepts (k : Kernel) (l : Label) : Option UInt8 :=
  match k.runningTask.kstack, l.event with
  | [], .mouse flags _ _ => if packetAccepted flags then some flags else none
  | _, _ => none

/-- The left button in `last_flags` and in the packet. -/
def buttonEdge (k : Kernel) (l : Label) : Option (Bool × Bool) :=
  (k.accepts l).map fun flags => (leftButton k.mouse.lastFlags, leftButton flags)

/-- `gui_handle_mouse_press` is called in this step. -/
def pressCalled (k : Kernel) (l : Label) : Bool := k.buttonEdge l = some (false, true)

/-- `gui_handle_mouse_release` is called in this step. -/
def releaseCalled (k : Kernel) (l : Label) : Bool := k.buttonEdge l = some (true, false)

/-- **Every edge is dispatched once.** -/
structure EdgesDispatched (img : FsImage) (labels : List Label) : Prop where
  press : countSteps (fun k l => k.step img l) pressCalled start labels
    = edges (false, true) false (labels.filterMap acceptedButton)
  release : countSteps (fun k l => k.step img l) releaseCalled start labels
    = edges (true, false) false (labels.filterMap acceptedButton)

/-- A packet waits on the kernel stack of this task. -/
def packetPending (k : Kernel) (x : TaskId) : Bool :=
  (k.task x).valid && (k.task x).kstack.any Frame.isMouseTail

/-- No packet is accepted before the last one is finished, and none closes the window of the
running task. -/
def FinishesPackets (k : Kernel) (l : Label) : Prop :=
  k.accepts l ≠ none → (∀ x, k.packetPending x = false) ∧ k.halts l ≠ some .window

instance (k : Kernel) (l : Label) : Decidable (k.FinishesPackets l) :=
  inferInstanceAs (Decidable (_ → _ ∧ _))

/-! ## The invariant -/

/-- The last accepted packet had the left button `b`: it is stored, or it still waits. -/
structure Tracks (b : Bool) (k : Kernel) : Prop where
  orderly : ∀ x, (k.task x).valid = true → Orderly (k.task x).kstack
  pending : ∀ x flags dx dy, (k.task x).valid = true →
    .mouseTail flags dx dy ∈ (k.task x).kstack → leftButton flags = b
  stored : (∃ x, k.packetPending x = true) ∨ leftButton k.mouse.lastFlags = b

theorem packetPending_iff : k.packetPending x = true ↔
    (k.task x).valid = true ∧ ∃ f ∈ (k.task x).kstack, f.isMouseTail = true := by
  rw [packetPending, Bool.and_eq_true, List.any_eq_true]

/-- Only the packets that wait count, and what is stored. -/
theorem Tracks.congr (ht : k.Tracks b) (hm : k'.mouse.lastFlags = k.mouse.lastFlags)
    (hnew : ∀ x, (k'.task x).valid = true → (k'.task x).kstack = [] ∨
      (k.task x).valid = true ∧ SamePackets (k.task x).kstack (k'.task x).kstack)
    (hold : ∀ x, k.packetPending x = true → k'.packetPending x = true) : k'.Tracks b where
  orderly x hx := by
    rcases hnew x hx with hnil | ⟨hv, hs⟩
    · rw [hnil]
      exact List.Pairwise.nil
    · exact hs.orderly (ht.orderly x hv)
  pending x flags dx dy hx hf := by
    rcases hnew x hx with hnil | ⟨hv, hs⟩
    · rw [hnil] at hf
      cases hf
    · exact ht.pending x flags dx dy hv ((hs.packets _ rfl).mp hf)
  stored := by
    rcases ht.stored with ⟨x, hx⟩ | hs
    · exact Or.inl ⟨x, hold x hx⟩
    · exact Or.inr (hm ▸ hs)

/-- The same packets wait in the same tasks. -/
theorem Tracks.same (ht : k.Tracks b) (hm : k'.mouse.lastFlags = k.mouse.lastFlags)
    (hv : ∀ x, (k'.task x).valid = (k.task x).valid)
    (hs : ∀ x, (k.task x).valid = true → SamePackets (k.task x).kstack (k'.task x).kstack) :
    k'.Tracks b := by
  refine ht.congr hm (fun x hx => ?_) fun x hx => ?_
  · rw [hv] at hx
    exact Or.inr ⟨hx, hs x hx⟩
  · obtain ⟨hx, f, hf, hft⟩ := packetPending_iff.mp hx
    exact packetPending_iff.mpr ⟨(hv x).trans hx, f, ((hs x hx).packets f hft).mpr hf, hft⟩

theorem Still.tracks (h : Still k k') (ht : k.Tracks b) : k'.Tracks b :=
  ht.same (by rw [h.mouse]) h.taskValid fun x hx => (h.stack x hx).samePackets

theorem restack_samePackets (k : Kernel) {g : List Frame → List Frame}
    (h : SamePackets k.runningTask.kstack (g k.runningTask.kstack)) (x : TaskId) :
    ((k.modifyTask k.running fun t => { t with kstack := g t.kstack }).task x).valid
        = (k.task x).valid ∧
      SamePackets (k.task x).kstack
        ((k.modifyTask k.running fun t => { t with kstack := g t.kstack }).task x).kstack := by
  by_cases hx : x = k.running
  · rw [hx, modifyTask_task, Function.update_self]
    exact ⟨rfl, h⟩
  · rw [modifyTask_task, Function.update_of_ne hx]
    exact ⟨rfl, .refl _⟩

theorem enterInterrupt_samePackets (k : Kernel) (h : k.runningTask.kstack = []) (x : TaskId) :
    (k.enterInterrupt.task x).valid = (k.task x).valid ∧
      SamePackets (k.task x).kstack (k.enterInterrupt.task x).kstack := by
  apply k.restack_samePackets (g := fun fs => .signalCheck :: fs)
  rw [h]
  refine ⟨fun _ => List.pairwise_singleton _ _, fun f hf => ?_⟩
  rw [List.mem_singleton]
  refine ⟨?_, fun hn => by cases hn⟩
  rintro rfl
  cases hf

/-- The entry code pushes the way back to the program on an empty stack; a frame that is left
is not a packet. -/
theorem entered_samePackets (k : Kernel) (l : Label)
    (hf : k.NoPacketOnTop) (x : TaskId) :
    ((k.entered l).task x).valid = (k.task x).valid ∧
      SamePackets (k.task x).kstack ((k.entered l).task x).kstack := by
  unfold entered
  split
  · next f fs hstack =>
    apply k.restack_samePackets (g := List.tail)
    rw [hstack]
    exact .pop (hf f fs hstack) fs
  · next hstack _ => exact k.enterInterrupt_samePackets hstack x
  · next hstack _ => exact k.enterInterrupt_samePackets hstack x
  · next hstack _ => exact k.enterInterrupt_samePackets hstack x
  · next hstack _ => exact k.enterInterrupt_samePackets hstack x
  · next hstack _ => exact k.enterInterrupt_samePackets hstack x
  · exact ⟨rfl, .refl _⟩
  · exact ⟨rfl, .refl _⟩
  · next hstack _ _ _ _ _ _ _ =>
    obtain ⟨hv, hs⟩ := k.enterInterrupt_samePackets hstack x
    have hpush := k.enterInterrupt.restack_samePackets (g := fun fs => .syscallDone :: fs)
      (.push rfl _) x
    exact ⟨hpush.1.trans hv, hs.trans hpush.2⟩

theorem entered_mouse (k : Kernel) (l : Label) : (k.entered l).mouse = k.mouse := by
  unfold entered
  split <;> rfl

theorem Tracks.entered (ht : k.Tracks b) (l : Label)
    (hf : k.NoPacketOnTop) :
    (k.entered l).Tracks b :=
  ht.same (by rw [entered_mouse]) (fun x => (k.entered_samePackets l hf x).1)
    fun x _ => (k.entered_samePackets l hf x).2

/-! ## The steps -/

theorem Tracks.of_task (ht : k.Tracks b) (hm : k'.mouse.lastFlags = k.mouse.lastFlags)
    (htask : k'.task = k.task) : k'.Tracks b :=
  ht.same hm (fun x => by rw [htask]) fun x _ => by rw [htask]; exact .refl _

theorem Launched.tracks {a : ExecuteArgs} (h : Launched k a x k') (hm : k'.mouse = k.mouse)
    (ht : k.Tracks b) : k'.Tracks b := by
  have hother : ∀ y, y ≠ x → (k'.task y).valid = (k.task y).valid ∧
      SamePackets (k.task y).kstack (k'.task y).kstack := by
    intro y hy
    by_cases hr : y = k.running
    · rw [hr, h.caller]
      exact ⟨rfl, .push rfl _⟩
    · rw [h.other y hy hr]
      exact ⟨rfl, .refl _⟩
  refine ht.congr (by rw [hm]) (fun y hy => ?_) fun y hy => ?_
  · by_cases hyx : y = x
    · exact Or.inl (hyx ▸ h.kstack)
    · obtain ⟨hv, hs⟩ := hother y hyx
      exact Or.inr ⟨hv ▸ hy, hs⟩
  · obtain ⟨hv, f, hf, hft⟩ := packetPending_iff.mp hy
    have hyx : y ≠ x := by
      rintro rfl
      rw [h.fresh] at hv
      cases hv
    obtain ⟨hv', hs⟩ := hother y hyx
    exact packetPending_iff.mpr ⟨hv'.trans hv, f, (hs.packets f hft).mpr hf, hft⟩

/-- The end of a task with no packet. -/
theorem TornDown.tracks {k₁ : Kernel} (h : TornDown x k k₁) (htask : k'.task = k₁.task)
    (hm : k'.mouse = k.mouse) (hx : k.packetPending x = false) (ht : k.Tracks b) :
    k'.Tracks b := by
  have hother : ∀ y, y ≠ x → (k'.task y).valid = (k.task y).valid ∧
      (k'.task y).kstack = (k.task y).kstack := by
    intro y hy
    rw [htask]
    by_cases hp : (k.task x).parent = some y
    · rw [h.parent y hy hp]
      exact ⟨rfl, rfl⟩
    · rw [h.other y hy hp]
      exact ⟨rfl, rfl⟩
  refine ht.congr (by rw [hm]) (fun y hy => ?_) fun y hy => ?_
  · have hyx : y ≠ x := by
      rintro rfl
      rw [htask, h.dead] at hy
      cases hy
    obtain ⟨hv, hs⟩ := hother y hyx
    exact Or.inr ⟨hv ▸ hy, hs ▸ .refl _⟩
  · have hyx : y ≠ x := by
      rintro rfl
      rw [hx] at hy
      cases hy
    obtain ⟨hv, hs⟩ := hother y hyx
    rw [packetPending, hv, hs]
    exact hy

theorem Halted.tracks {status : BitVec 32} (h : Halted noise status k k') (hm : k'.mouse = k.mouse)
    (hx : k.packetPending k.running = false) (ht : k.Tracks b) : k'.Tracks b := by
  cases h with
  | toParent p k₁ hp htorn h => exact htorn.tracks h.task hm hx ht
  | alone k₁ hp htorn h hne => exact htorn.tracks h.task hm hx ht

/-- A task that halts on its own account has no packet left. -/
theorem halts_packetFree {cause : EndCause} (ho : Orderly k.runningTask.kstack)
    (hc : k.halts l = some cause) (hw : cause ≠ .window) :
    ∀ f ∈ k.runningTask.kstack, f.isMouseTail = false := by
  unfold halts at hc
  split at hc
  · next rest hstack he =>
    rw [hstack] at ho ⊢
    intro f hf
    rcases List.mem_cons.mp hf with rfl | hf
    · rfl
    · exact ho.signalCheck f hf
  · next hstack _ =>
    rw [hstack]
    exact fun f hf => by cases hf
  · split at hc
    · exact absurd (Option.some.inj hc).symm hw
    · cases hc
  · cases hc

/-- At the end of a packet the edge is stored. -/
theorem Tracks.finish {flags dx dy : UInt8} {fs : List Frame} (ht : k.Tracks b) (hk : k.Sound)
    (hstack : k.runningTask.kstack = .mouseTail flags dx dy :: fs) :
    (k.pop.mouseTail flags dx dy).Tracks b := by
  have htask : ∀ y, ((k.pop.mouseTail flags dx dy).task y).valid = (k.task y).valid ∧
      ((k.pop.mouseTail flags dx dy).task y).kstack <:+ (k.task y).kstack := by
    intro y
    have hmove : (k.pop.mouseTail flags dx dy).task = k.pop.task := by
      show (k.pop.guiHandleMouseMove _ _).1.task = _
      unfold guiHandleMouseMove
      split
      · rfl
      · split
        · rfl
        · simp only [apply_ite Prod.fst]
          split <;> rfl
    rw [hmove]
    by_cases hy : y = k.running
    · rw [hy, pop, modifyTask_task, Function.update_self]
      exact ⟨rfl, List.tail_suffix _⟩
    · rw [pop, modifyTask_task, Function.update_of_ne hy]
      exact ⟨rfl, List.suffix_refl _⟩
  have hb : leftButton flags = b := by
    refine ht.pending k.running flags dx dy hk.running ?_
    rw [show (k.task k.running).kstack = _ from hstack]
    exact List.mem_cons_self
  refine ⟨fun x hx => ?_, fun x flags' dx' dy' hx hf => ?_, Or.inr hb⟩
  · obtain ⟨hv, hs⟩ := htask x
    exact (ht.orderly x (hv ▸ hx)).sublist hs.sublist
  · obtain ⟨hv, hs⟩ := htask x
    exact ht.pending x flags' dx' dy' (hv ▸ hx) (hs.subset hf)

/-- **A step that is no packet** leaves the edge where it was. -/
theorem Pointed.tracks (h : Pointed img k l k') (hk : k.Sound) (ht : k.Tracks b)
    (hp : ∀ flags dx dy, l.event ≠ .mouse flags dx dy) : k'.Tracks b := by
  cases h with
  | still hf h => exact h.tracks (ht.entered l hf)
  | packet flags dx dy hstack he h => exact absurd he (hp flags dx dy)
  | tail flags dx dy fs hstack he h =>
    rw [h]
    exact ht.finish hk hstack
  | executed a x ha hn hstack hl h hmouse hgui =>
    exact h.tracks (hmouse.trans (k.entered_mouse l).symm) (ht.entered l (noPacketOnTop_nil hstack))
  | halted k₁ cause hc hw hk₁ hq h hmouse =>
    have hfree := halts_packetFree (ht.orderly k.running hk.running) hc hw
    have hf : k.NoPacketOnTop := fun f fs hs => hfree f (hs ▸ List.mem_cons_self)
    refine h.tracks ?_ ?_ (hk₁.tracks (ht.entered l hf))
    · rw [hmouse, hk₁.mouse, entered_mouse]
    · by_contra hpending
      rw [Bool.not_eq_false, hq.running] at hpending
      obtain ⟨hv, f, hmem, hft⟩ := packetPending_iff.mp hpending
      have hv' : ((k.entered l).task k.running).valid = true := (hk₁.taskValid _).symm.trans hv
      have hsame := (k.entered_samePackets l hf k.running).2.trans
        (hk₁.stack k.running hv').samePackets
      rw [hfree f ((hsame.packets f hft).mp hmem)] at hft
      cases hft

/-- A packet that is accepted when none waits. -/
theorem tracks_packet (flags dx dy : UInt8) (ht : k.Tracks b) (hk : k.Sound)
    (hstack : k.runningTask.kstack = []) (hfree : ∀ x, k.packetPending x = false) :
    (k.enterInterrupt.push (.mouseTail flags dx dy)).Tracks (leftButton flags) := by
  have htask : ∀ x, x ≠ k.running →
      (k.enterInterrupt.push (.mouseTail flags dx dy)).task x = k.task x := by
    intro x hx
    simp [push, enterInterrupt, Function.update_of_ne hx]
  have hself : ((k.enterInterrupt.push (.mouseTail flags dx dy)).task k.running).valid = true ∧
      ((k.enterInterrupt.push (.mouseTail flags dx dy)).task k.running).kstack
        = [.mouseTail flags dx dy, .signalCheck] := by
    have hnil : (k.task k.running).kstack = [] := hstack
    simp [push, enterInterrupt, hk.running, hnil]
  refine ⟨fun x hx => ?_, fun x flags' dx' dy' hx hf => ?_, Or.inl ⟨k.running, ?_⟩⟩
  · by_cases hr : x = k.running
    · rw [hr, hself.2]
      exact List.pairwise_pair.mpr fun h => by cases h
    · rw [htask x hr] at hx ⊢
      exact ht.orderly x hx
  · by_cases hr : x = k.running
    · rw [hr, hself.2] at hf
      rcases List.mem_cons.mp hf with he | hf
      · cases he
        rfl
      · cases List.mem_singleton.mp hf
    · rw [htask x hr] at hx hf
      have hpending := packetPending_iff.mpr ⟨hx, _, hf, rfl⟩
      rw [hfree x] at hpending
      cases hpending
  · exact packetPending_iff.mpr ⟨hself.1, _, hself.2 ▸ List.mem_cons_self, rfl⟩

/-- **A packet** that is accepted when none waits, and does not close the window of the running
task. -/
theorem packet_tracks {flags dx dy : UInt8} (ht : k.Tracks b) (hk : k.Sound)
    (hstack : k.runningTask.kstack = []) (he : l.event = .mouse flags dx dy)
    (hfree : ∀ x, k.packetPending x = false) (hw : k.halts l ≠ some .window)
    (haccept : packetAccepted flags = true)
    (h : k.enterInterrupt.mouseInterruptHandler img l.noise flags dx dy = .ok k') :
    k'.Tracks (leftButton flags) := by
  have hpush := tracks_packet flags dx dy ht hk hstack hfree
  have hsound : (k.enterInterrupt.push (.mouseTail flags dx dy)).Sound :=
    (k.quiet_enterInterrupt.trans (quiet_push _ rfl)).toCalm.sound hk
  rcases mouseInterruptHandler_cases h with
    ⟨hdrop, -⟩ | ⟨-, ⟨-, -, rfl⟩ | ⟨hlast, hflags, hrun⟩ | ⟨-, rfl⟩⟩
  · rw [haccept] at hdrop
    cases hdrop
  · obtain ⟨htask, hmouse⟩ := guiHandleMousePress_devices
      (k.enterInterrupt.push (.mouseTail flags dx dy)) k.mouse.x k.mouse.y
    exact hpush.of_task (by rw [← hmouse]; rfl) htask
  · obtain ⟨g, hg, -, hcases⟩ := guiHandleMouseRelease_cases hsound hrun
    have hg' : Tracks (leftButton flags)
        { k.enterInterrupt.push (.mouseTail flags dx dy) with gui := g } :=
      hpush.of_task rfl rfl
    rcases hcases with ⟨t, hred, hhalt⟩ | ⟨-, rfl | ⟨-, hu | ⟨-, hexec, x, hlaunch⟩⟩⟩
    · have hcloses : k.mouseCloses flags = k.terminalFgTask (k.term (some t)).win.terminalId := by
        have hred' : k.redWindow = some t := hred
        have hrel : k.mouseReleases flags = true := by
          have hlast' : leftButton k.mouse.lastFlags = true := hlast
          simp [mouseReleases, haccept, hlast', hflags]
        rw [mouseCloses, if_pos hrel, hred']
        rfl
      rcases taskHaltTerminal_devices hhalt with hs | hfg | ⟨x, hfg, hne, htorn, hmouse⟩
      · exact hs.tracks hg'
      · refine absurd ?_ hw
        have hfg' := hcloses.trans hfg
        simp [halts, hstack, he, hfg', push, enterInterrupt]
      · refine htorn.tracks rfl hmouse ?_ hg'
        have hne' : x ≠ k.running := hne
        have hx := hfree x
        simpa [packetPending, push, enterInterrupt, Function.update_of_ne hne'] using hx
    · exact hg'
    · exact hu.still.tracks hg'
    · have hsound' : Sound { k.enterInterrupt.push (.mouseTail flags dx dy) with gui := g } :=
        (quiet_devices _ g k.keyboard k.mouse hg).toCalm.sound hsound
      exact hlaunch.tracks (hlaunch.devices hsound' hexec).1 hg'
  · exact hpush

theorem step_mouse_eq {flags dx dy : UInt8} (he : l.event = .mouse flags dx dy)
    (h : k.step img l = .ok k') : k.runningTask.kstack = [] ∧
      k.enterInterrupt.mouseInterruptHandler img l.noise flags dx dy = .ok k' := by
  unfold step at h
  rw [he] at h
  cases hstack : k.runningTask.kstack with
  | nil =>
    rw [hstack] at h
    exact ⟨rfl, h⟩
  | cons f fs =>
    rw [hstack] at h
    cases h

/-- **One step.**  The comparison is with the packet before. -/
theorem step_tracks (hk : k.Sound) (ht : k.Tracks b) (hc : k.FinishesPackets l)
    (h : k.step img l = .ok k') : k.buttonEdge l = (acceptedButton l).map (b, ·) ∧
      k'.Tracks ((acceptedButton l).getD b) := by
  by_cases he : ∃ flags dx dy, l.event = .mouse flags dx dy
  · obtain ⟨flags, dx, dy, he⟩ := he
    obtain ⟨hstack, hrun⟩ := step_mouse_eq he h
    cases haccept : packetAccepted flags with
    | true =>
      have hb : acceptedButton l = some (leftButton flags) := by simp [acceptedButton, he, haccept]
      have ha : k.accepts l = some flags := by simp [accepts, hstack, he, haccept]
      obtain ⟨hfree, hw⟩ := hc (by simp [ha])
      have hlast : leftButton k.mouse.lastFlags = b := by
        rcases ht.stored with ⟨x, hx⟩ | hlast
        · rw [hfree x] at hx
          cases hx
        · exact hlast
      rw [buttonEdge, ha, hb, ← hlast]
      exact ⟨rfl, packet_tracks ht hk hstack he hfree hw haccept hrun⟩
    | false =>
      have hb : acceptedButton l = none := by simp [acceptedButton, he, haccept]
      have ha : k.accepts l = none := by simp [accepts, hstack, he, haccept]
      rw [buttonEdge, ha, hb]
      refine ⟨rfl, ?_⟩
      rcases mouseInterruptHandler_cases hrun with ⟨-, rfl⟩ | ⟨htrue, -⟩
      · exact ht.same rfl (fun x => (k.enterInterrupt_samePackets hstack x).1)
          fun x _ => (k.enterInterrupt_samePackets hstack x).2
      · rw [haccept] at htrue
        cases htrue
  · have hp : ∀ flags dx dy, l.event ≠ .mouse flags dx dy :=
      fun flags dx dy hm => he ⟨flags, dx, dy, hm⟩
    have hb : acceptedButton l = none := by
      unfold acceptedButton
      split
      · next hm => exact absurd hm (hp _ _ _)
      · rfl
    have ha : k.accepts l = none := by
      unfold accepts
      split
      · next hm => exact absurd hm (hp _ _ _)
      · rfl
    rw [buttonEdge, ha, hb]
    exact ⟨rfl, (step_pointed hk h).tracks hk ht hp⟩

/-- **A run.**  The calls are the edges of the accepted packets. -/
theorem countSteps_edges (e : Bool × Bool) (labels : List Label) : ∀ {k k' : Kernel} {b : Bool},
    k.Sound → k.Tracks b →
    Meets (fun k l => k.step img l) FinishesPackets k labels →
    Machine.run (fun k l => k.step img l) k labels = .ok k' →
    countSteps (fun k l => k.step img l) (fun k l => k.buttonEdge l = some e) k labels
      = edges e b (labels.filterMap acceptedButton) := by
  induction labels with
  | nil =>
    intro k k' b _ _ _ _
    rfl
  | cons l labels ih =>
    intro k k' b hk ht hm h
    obtain ⟨k₁, hstep, hrun⟩ := run_cons_ok.mp h
    obtain ⟨hedge, ht₁⟩ := step_tracks hk ht hm.1 hstep
    have hrest := ih (step_sound hk hstep) ht₁ (hm.2 k₁ hstep) hrun
    rw [countSteps_cons labels hstep, hrest, hedge]
    cases hb : acceptedButton l with
    | none =>
      rw [List.filterMap_cons_none hb]
      simp
    | some c =>
      rw [List.filterMap_cons_some hb, edges_cons]
      simp

theorem start_tracks : start.Tracks false where
  orderly := by
    have hnil : ∀ x, (start.task x).kstack = [] ∨
        (start.task x).kstack = [.executeLaunch false] := by
      decide +kernel
    intro x _
    rcases hnil x with h | h <;> rw [h]
    · exact List.Pairwise.nil
    · exact List.pairwise_singleton _ _
  pending := by
    have hfree : ∀ x, (start.task x).kstack.any Frame.isMouseTail = false := by decide +kernel
    intro x flags dx dy _ hf
    have := List.any_eq_false.mp (hfree x) _ hf
    exact absurd rfl this
  stored := Or.inr rfl

/-- **Every edge of the left button is dispatched once**, in every run in which each packet is
finished before the next one. -/
theorem edges_dispatched_once (img : FsImage) (labels : List Label) (k : Kernel)
    (hm : Meets (fun k l => k.step img l) FinishesPackets start labels)
    (h : run (fun k l => k.step img l) start labels = .ok k) : EdgesDispatched img labels where
  press := countSteps_edges (false, true) labels start_sound start_tracks hm h
  release := countSteps_edges (true, false) labels start_sound start_tracks hm h

theorem edges_dispatched_once_shell : ∃ k, run (fun k l => k.step programs l) start
    (traceOf (firstTick ++ openShell)) = .ok k ∧
      edges (true, false) false ((traceOf (firstTick ++ openShell)).filterMap acceptedButton) = 1 ∧
      EdgesDispatched programs (traceOf (firstTick ++ openShell)) := by
  have h : (run (fun k l => k.step programs l) start
      (traceOf (firstTick ++ openShell))).toOption.map (fun k => k.taskCount) = some 3 := by
    decide +kernel
  obtain ⟨k, hk, -⟩ := toOption_map_eq_some.mp h
  exact ⟨k, hk, by decide +kernel, edges_dispatched_once programs _ k (by decide +kernel) hk⟩

/-- **A release is dispatched twice.**  It starts a shell, which runs before the handler has
stored the packet; the next packet, with the button still up, is compared with the press. -/
theorem release_dispatched_twice : ∃ k, run (fun k l => k.step programs l) start
    (traceOf (firstTick ++ openShell ++ [.mouse 0x08 0 0])) = .ok k ∧
      ¬ EdgesDispatched programs (traceOf (firstTick ++ openShell ++ [.mouse 0x08 0 0])) := by
  have h : (run (fun k l => k.step programs l) start
      (traceOf (firstTick ++ openShell ++ [.mouse 0x08 0 0]))).toOption.map
        (fun k => k.taskCount) = some 4 := by
    decide +kernel
  obtain ⟨k, hk, -⟩ := toOption_map_eq_some.mp h
  refine ⟨k, hk, fun hd => ?_⟩
  have hcalls : countSteps (fun k l => k.step programs l) releaseCalled start
      (traceOf (firstTick ++ openShell ++ [.mouse 0x08 0 0])) = 2 := by decide +kernel
  have hedges : edges (true, false) false
      ((traceOf (firstTick ++ openShell ++ [.mouse 0x08 0 0])).filterMap acceptedButton) = 1 := by
    decide +kernel
  have := hd.release
  rw [hcalls, hedges] at this
  cases this

end Kernel

end AuroraOS
