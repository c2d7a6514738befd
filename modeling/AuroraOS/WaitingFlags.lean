/-
# The waiting flags

A task that waits says so twice: by a flag, and by the list that it is on.  The two are
set apart from each other, and agree when nobody is woken by the RTC, whose handler
clears the flag of the parent, and no key wakes a task that waits for the RTC.
-/
import AuroraOS.RtcWakeUp
import AuroraOS.NullPointers

namespace AuroraOS

open Ring Machine

/-- The flag of the tasks on a list of waiting tasks. -/
def Sentinel.flag : Sentinel → TaskFlags → Bool
  | .wait4childList, f => f.waitingChild
  | .rtcWaitList, f => f.waitingRtc
  | .terminalWaitList, f => f.waitingTerminal
  | _, _ => false

/-- A list of waiting tasks. -/
def Sentinel.waits (s : Sentinel) : Prop :=
  s = .wait4childList ∨ s = .rtcWaitList ∨ s = .terminalWaitList

/-- The flags without those of a task that waits. -/
def TaskFlags.awake (f : TaskFlags) : TaskFlags :=
  { f with waitingChild := false, waitingRtc := false, waitingTerminal := false }

/-- One of the waiting flags is set. -/
def TaskFlags.waiting (f : TaskFlags) : Bool :=
  f.waitingChild || f.waitingRtc || f.waitingTerminal

namespace Kernel

variable {k k' k₀ : Kernel} {img : FsImage} {noise : Noise} {l : Label} {x y : TaskId}
variable {st : TermId → List TaskId} {place place' : TaskId → Option Sentinel} {t : TermId}

/-! ## The statement -/

/-- **The waiting flags say which list a task is on.** -/
structure FlagsAgree (k : Kernel) : Prop where
  listed : ∀ s, s.waits → ∀ x, (k.task x).valid = true →
    (s.flag (k.task x).flags = true ↔ x ∈ k.taskList s)
  runs : ∀ x, (k.task x).valid = true →
    ((k.task x).flags.waiting = false ↔ x ∈ k.taskList .runQueue)

/-- The task `x` comes back to the run queue. -/
def Wakes (k k' : Kernel) (x : TaskId) : Prop :=
  (k.task x).valid = true ∧ (k'.task x).valid = true ∧
    x ∉ k.taskList .runQueue ∧ x ∈ k'.taskList .runQueue

/-- **A wake-up clears the flag of the task that is woken**, and changes no other flags. -/
structure WakesOwn (k k' : Kernel) : Prop where
  own : ∀ x, Wakes k k' x → (k'.task x).flags = (k.task x).flags.awake
  others : ∀ x, Wakes k k' x → ∀ y, y ≠ x → (k.task y).valid = true → (k'.task y).valid = true →
    (k'.task y).flags = (k.task y).flags

/-- The RTC wakes no task, and no key wakes a task that waits for the RTC, or the one at the
head of the run queue. -/
def KeepsFlags (k : Kernel) (l : Label) : Prop :=
  KeepsRings k l ∧ k.rtcWakes l = false ∧ ∀ f ∈ k.keyWakes l, f ∉ k.taskList .rtcWaitList

instance (k : Kernel) (l : Label) : Decidable (KeepsFlags k l) :=
  inferInstanceAs (Decidable (_ ∧ _ ∧ ∀ f ∈ k.keyWakes l, _))

/-! ## The invariant -/

/-- The flag of a list of waiting tasks is set for the tasks that have their place there. -/
def Flagged (k : Kernel) (place : TaskId → Option Sentinel) (s : Sentinel) : Prop :=
  ∀ x, (k.task x).valid = true → (s.flag (k.task x).flags = true ↔ place x = some s)

/-- What a step does to a task, the flag of a list follows. -/
theorem Moved.flag_iff {o o' : Option Sentinel} {f f' : TaskFlags} {s : Sentinel}
    (h : Moved k₀ l y o f o' f') (hs : s.waits) (ho' : o' ≠ none)
    (hrtc : s = .rtcWaitList → k₀.rtcWakes l = false ∧ (k₀.keyWakes l = some y → o ≠ some s))
    (ha : o ≠ none → (s.flag f = true ↔ o = some s)) : s.flag f' = true ↔ o' = some s := by
  cases h with
  | stays => exact ha ho'
  | reads hr => rcases hs with rfl | rfl | rfl <;> simp_all [Sentinel.flag]
  | waits hr => rcases hs with rfl | rfl | rfl <;> simp_all [Sentinel.flag]
  | starts hr => rcases hs with rfl | rfl | rfl <;> simp_all [Sentinel.flag]
  | child => rcases hs with rfl | rfl | rfl <;> simp_all [Sentinel.flag]
  | key hk hne =>
    rcases hs with rfl | rfl | rfl
    · simpa [Sentinel.flag, hne] using ha
    · simpa [Sentinel.flag, (hrtc rfl).2 hk] using ha
    · simp [Sentinel.flag]
  | rtc hl ho =>
    rcases hs with rfl | rfl | rfl
    · rcases ho with rfl | ⟨rfl, rfl⟩ <;> simpa [Sentinel.flag, ho'] using ha
    · rw [(hrtc rfl).1] at hl
      cases hl
    · rcases ho with rfl | ⟨rfl, rfl⟩ <;> simpa [Sentinel.flag, ho'] using ha
  | new hv hc hr ht => rcases hs with rfl | rfl | rfl <;> simp [Sentinel.flag, hc, hr, ht]

/-- **A step that moves the tasks keeps the flag of a list.** -/
theorem AllMoved.flagged {s : Sentinel} (h : AllMoved k₀ l place k' place')
    (hl : k₀.Listed st place) (hl' : ∀ x, (k'.task x).valid = true → place' x ≠ none)
    (hs : s.waits) (hf : k₀.Flagged place s)
    (hrtc : s = .rtcWaitList → k₀.rtcWakes l = false ∧
      ∀ f ∈ k₀.keyWakes l, place f ≠ some s) : k'.Flagged place' s :=
  fun x hx => (h.moved x hx).flag_iff hs (hl' x hx)
    (fun he => ⟨(hrtc he).1, fun hk => (hrtc he).2 x hk⟩) fun ho => hf x ((hl.valid x).mpr ho)

/-- The stacks and the places of the tasks, with the flags of all lists. -/
structure InFlags (k : Kernel) (st : TermId → List TaskId) (place : TaskId → Option Sentinel) :
    Prop where
  shaped : k.Shaped st place
  running : place k.running = some .runQueue
  flagged : ∀ s, s.waits → k.Flagged place s

theorem InFlags.flag_eq_false {s : Sentinel} (h : k.InFlags st place) (hs : s.waits)
    (hx : (k.task x).valid = true) (hne : place x ≠ some s) : s.flag (k.task x).flags = false := by
  cases hf : s.flag (k.task x).flags with
  | false => rfl
  | true => exact absurd ((h.flagged s hs x hx).mp hf) hne

theorem InFlags.flagsAgree (h : k.InFlags st place) : k.FlagsAgree := by
  have hmem := fun x s => mem_taskList h.shaped.listed.places x s
  refine ⟨fun s hs x hx => (h.flagged s hs x hx).trans (hmem x s).symm, fun x hx => ?_⟩
  rw [hmem]
  obtain ⟨s, hxs⟩ := h.shaped.place_of_valid hx
  have hchild := h.flagged .wait4childList (Or.inl rfl) x hx
  have hrtc := h.flagged .rtcWaitList (Or.inr (Or.inl rfl)) x hx
  have hterm := h.flagged .terminalWaitList (Or.inr (Or.inr rfl)) x hx
  have htemp := h.shaped.listed.temp x
  simp only [Sentinel.flag, hxs, Option.some.injEq] at hchild hrtc hterm
  rw [hxs] at htemp ⊢
  unfold TaskFlags.waiting
  cases s <;> simp_all

/-! ## Steps -/

theorem KeepsFlags.off_rtc (hc : KeepsFlags k l) (h : k.InFlags st place) :
    ∀ f ∈ k.keyWakes l, place f ≠ some .rtcWaitList := by
  intro f hf hp
  exact hc.2.2 f hf ((mem_taskList h.shaped.listed.places f _).mpr hp)

/-- What a step does, the flags follow. -/
theorem InFlags.step (h : k.InFlags st place) (hk : k.Sound) (hc : KeepsFlags k l)
    (ht : k.step img l = .ok k') :
    ∃ st' place', k'.InFlags st' place' ∧ AllMoved k l place k' place' := by
  obtain ⟨st', place', hs', hr', hm⟩ := (step_outcome hk ht).placed hk h.shaped h.running hc.1
  refine ⟨st', place', ⟨hs', hr', fun s hs => ?_⟩, hm⟩
  refine hm.flagged h.shaped.listed (fun x hx => (hs'.listed.valid x).mp hx) hs (h.flagged s hs) ?_
  rintro rfl
  exact ⟨hc.2.1, hc.off_rtc h⟩

/-- A task that comes back to the run queue has its own flag cleared. -/
theorem InFlags.wakes_own (h : k.InFlags st place) (hc : KeepsFlags k l)
    (hm : AllMoved k l place k' place') (hx : (k.task x).valid = true)
    (hx' : (k'.task x).valid = true) (hp : place x ≠ some .runQueue)
    (hp' : place' x = some .runQueue) : (k'.task x).flags = (k.task x).flags.awake := by
  have hoff := fun s hs => h.flag_eq_false (s := s) hs hx
  have hkey := hc.off_rtc h x
  have hmoved := hm.moved x hx'
  generalize ho : place x = o at hmoved hp hoff hkey
  generalize ho' : place' x = o' at hmoved hp'
  generalize hf : (k.task x).flags = f at hmoved hoff ⊢
  generalize (k'.task x).flags = f' at hmoved ⊢
  cases hmoved with
  | stays => exact absurd hp' hp
  | reads hr => cases hp'
  | waits hr => cases hp'
  | starts hr => cases hp'
  | child =>
    have hrtc : f.waitingRtc = false := hoff .rtcWaitList (Or.inr (Or.inl rfl)) (by simp)
    have hterm : f.waitingTerminal = false := hoff .terminalWaitList (Or.inr (Or.inr rfl)) (by simp)
    simp [TaskFlags.awake, hrtc, hterm]
  | key hk hne =>
    have hchild : f.waitingChild = false :=
      hoff .wait4childList (Or.inl rfl) fun he => hne (Option.some.inj he)
    have hrtc : f.waitingRtc = false := hoff .rtcWaitList (Or.inr (Or.inl rfl)) (hkey hk)
    simp [TaskFlags.awake, hchild, hrtc]
  | rtc hl hmove =>
    rw [hc.2.1] at hl
    cases hl
  | new hv =>
    rw [hx] at hv
    cases hv

theorem InFlags.wakesOwn (h : k.InFlags st place) (h' : Places k'.links place')
    (hc : KeepsFlags k l) (hm : AllMoved k l place k' place') : WakesOwn k k' := by
  have hplace : ∀ x, Wakes k k' x → place x ≠ some .runQueue ∧ place' x = some .runQueue := by
    rintro x ⟨-, -, hnot, hmem⟩
    exact ⟨fun hp => hnot ((mem_taskList h.shaped.listed.places x _).mpr hp),
      (mem_taskList h' x _).mp hmem⟩
  refine ⟨fun x hw => ?_, fun x hw y hyx hy hy' => ?_⟩
  · exact h.wakes_own hc hm hw.1 hw.2.1 (hplace x hw).1 (hplace x hw).2
  · obtain ⟨z, hz⟩ := hm.lone hc.2.1
    have hxz : x = z := by
      by_contra hne
      have hp := (hplace x hw).2
      rw [(hz x hne hw.1 hw.2.1).2] at hp
      exact (hplace x hw).1 hp
    exact (hz y (hxz ▸ hyx) hy hy').1

/-- The handler of the RTC follows no pointer to a parent when it wakes no task. -/
theorem rtcInterruptHandler_ne_nullParent (hs : k.ListsWellFormed) (he : l.event = .rtc)
    (hstack : k.runningTask.kstack = []) (hw : k.rtcWakes l = false) :
    k.enterInterrupt.rtcInterruptHandler noise ≠ .error .nullParent := by
  obtain ⟨m, hm, -⟩ := rtcLoop_idle hs he hw
  have hent : k.entered l = k.enterInterrupt := by
    unfold entered
    rw [hstack, he]
  rw [hent] at hm
  unfold rtcInterruptHandler
  rw [hm]
  exact ok_ne _

/-! ## Runs -/

theorem start_inFlags : ∃ st place, start.InFlags st place := by
  obtain ⟨st, place, hs, hr⟩ := start_inOrder
  have hkernel : ∀ x, (start.task x).valid = true → (start.task x).flags.kernelTask = true := by
    decide +kernel
  have hoff : ∀ x, (start.task x).flags.waiting = false := by decide +kernel
  refine ⟨st, place, hs, hr, fun s hw x hx => ?_⟩
  rw [hs.listed.kernel x hx (hkernel x hx)]
  have hflags := hoff x
  simp only [TaskFlags.waiting, Bool.or_eq_false_iff] at hflags
  rcases hw with rfl | rfl | rfl <;> simp [Sentinel.flag, hflags]

theorem run_inFlags {labels : List Label}
    (hm : Meets (fun k l => k.step img l) KeepsFlags start labels)
    (h : run (fun k l => k.step img l) start labels = .ok k) :
    k.Sound ∧ ∃ st place, k.InFlags st place := by
  refine run_invariant (I := fun k => k.Sound ∧ ∃ st place, k.InFlags st place)
    (fun k l k' hi hc ht => ?_) ⟨start_sound, start_inFlags⟩ hm h
  obtain ⟨hk, st, place, hf⟩ := hi
  obtain ⟨st', place', hf', -⟩ := hf.step hk hc ht
  exact ⟨step_sound hk ht, st', place', hf'⟩

/-- The shell starts `cat`, which reads from the RTC at 64 Hz: the next interrupt wakes it. -/
def catTicks : List Event :=
  firstTick ++ openShell ++
    [.execute catCommand, .openFile [114, 116, 99], .resume, .resume, .write 2 false 64 4,
      .resume, .resume, .read 2 true 0, .resume, .resume, .resume, .rtc]

end Kernel

end AuroraOS
