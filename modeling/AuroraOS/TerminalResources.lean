/-
# The resources of the terminals

A terminal is a slot of `terminal_slot`, a video memory, a window and a task that owns it.
They are allocated one after the other by `system_execute`, given back one after the other
when it fails, and torn down together with the owner.
-/
import AuroraOS.Accounting

namespace AuroraOS

open Machine

namespace Kernel

variable {k k' k₀ : Kernel} {img : FsImage} {noise : Noise} {l : Label} {x y : TaskId}
  {t u : TermId}

/-! ## The statement -/

/-- A valid task that owns the terminal. -/
def OwnsTerminal (k : Kernel) (x : TaskId) (t : TermId) : Prop :=
  (k.task x).valid = true ∧ (k.task x).flags.terminalOwner = true ∧ (k.task x).terminal = some t

/-- What `terminal_vidmem_open` returns. -/
def terminalVidmemOpenRet (termId : ℤ) : ℤ := if termId < 0 ∨ termId ≥ 5 then -1 else 0

/-- **The resources of the terminals are in step.** -/
structure TerminalsInStep (k : Kernel) : Prop where
  opened : ∀ t, k.vidmem.terminalOpened t = true ↔ (k.term (some t)).valid = true
  window : ∀ t, some t ∈ k.gui.windowStack ↔ (k.term (some t)).valid = true
  owner : ∀ t, (∃! x, k.OwnsTerminal x t) ↔ (k.term (some t)).valid = true
  terminalId : ∀ t, (k.term (some t)).valid = true → (k.term (some t)).win.terminalId = t
  vidmemOpens : ∀ m t, k.terminalAllocate = some (m, t) → terminalVidmemOpenRet t = 0 ∧
    m.vidmem.terminalOpened t = false
  windowOpens : ∀ m t, k.terminalAllocate = some (m, t) →
    ∃ m', guiNewWindow { m with vidmem := m.vidmem.terminalVidmemOpen t } t = some m'

/-! ## The invariant -/

/-- The open terminals are the valid ones, and each has one owner. -/
structure Owned (k : Kernel) : Prop where
  opened : ∀ t, k.vidmem.terminalOpened t = (k.term (some t)).valid
  owned : ∀ t, (k.term (some t)).valid = true → ∃ x, k.OwnsTerminal x t
  valid : ∀ x t, k.OwnsTerminal x t → (k.term (some t)).valid = true
  unique : ∀ x y t, k.OwnsTerminal x t → k.OwnsTerminal y t → x = y

/-- The slot that `terminal_allocate` takes was free. -/
theorem terminalAllocate_some {m : Kernel} (h : k.terminalAllocate = some (m, t)) :
    (k.term (some t)).valid = false ∧ m = k.modifyTerm (some t) Terminal.allocate := by
  unfold terminalAllocate at h
  obtain ⟨u, hfree, he⟩ := Option.map_eq_some_iff.mp h
  obtain ⟨hm, rfl⟩ := Prod.mk.inj he
  exact ⟨freeTerminal_valid hfree, hm.symm⟩

theorem Owned.inStep (ho : k.Owned) (hs : k.Sound) : k.TerminalsInStep where
  opened t := by rw [ho.opened]
  window t := by
    obtain ⟨wins, hw, hmem, -⟩ := hs.windowed
    rw [hw.mem_windowStack, hmem]
  owner t := by
    refine ⟨fun ⟨x, hx, _⟩ => ho.valid x t hx, fun ht => ?_⟩
    obtain ⟨x, hx⟩ := ho.owned t ht
    exact ⟨x, hx, fun y hy => ho.unique y x t hy hx⟩
  terminalId := by
    obtain ⟨wins, -, hmem, hid⟩ := hs.windowed
    exact fun t ht => hid t ((hmem t).mpr ht)
  vidmemOpens := by
    intro m t h
    obtain ⟨hv, rfl⟩ := terminalAllocate_some h
    refine ⟨?_, (ho.opened t).trans hv⟩
    have := t.isLt
    rw [terminalVidmemOpenRet, if_neg (by omega)]
  windowOpens := by
    intro m t h
    obtain ⟨hv, rfl⟩ := terminalAllocate_some h
    have hfits : k.WindowFits t := hs.windowed.fits hv
    obtain ⟨idx, -, hnew⟩ := guiNewWindow_some (k := { k.modifyTerm (some t) Terminal.allocate with
      vidmem := k.vidmem.terminalVidmemOpen t }) hfits
    exact ⟨_, hnew⟩

/-! ## What the steps do -/

/-- Only the owners, the open terminals and the valid ones count. -/
theorem Owned.congr (ho : k.Owned) (hx : ∀ x t, k'.OwnsTerminal x t ↔ k.OwnsTerminal x t)
    (hopen : k'.vidmem.terminalOpened = k.vidmem.terminalOpened)
    (hterm : ∀ t, (k'.term (some t)).valid = (k.term (some t)).valid) : k'.Owned where
  opened t := by rw [hopen, ho.opened, hterm]
  owned t ht := by
    obtain ⟨x, hown⟩ := ho.owned t ((hterm t).symm.trans ht)
    exact ⟨x, (hx x t).mpr hown⟩
  valid x t h := (hterm t).trans (ho.valid x t ((hx x t).mp h))
  unique x y t h h' := ho.unique x y t ((hx x t).mp h) ((hx y t).mp h')

/-- A valid task holds its terminal. -/
theorem ownsTerminal_congr (hv : (k'.task x).valid = (k.task x).valid)
    (hh : (k.task x).valid = true → (k.task x).SameHoldings (k'.task x)) (t : TermId) :
    k'.OwnsTerminal x t ↔ k.OwnsTerminal x t := by
  unfold OwnsTerminal
  rw [hv]
  refine and_congr_right fun hvalid => ?_
  rw [(hh hvalid).terminalOwner, (hh hvalid).terminal]

theorem Kept.owned (h : Kept k k') (ho : k.Owned) : k'.Owned :=
  ho.congr (fun x => ownsTerminal_congr (h.valid x) (h.held x)) h.opened fun t => h.term (some t)

theorem Owned.vidmapped (ho : k.Owned) (u : TermId) : (k.vidmapped u).Owned := by
  refine ho.congr (fun x t => ?_) rfl fun _ => rfl
  obtain ⟨hv, hf, -⟩ := k.vidmapped_task u x
  have ht : ((k.vidmapped u).task x).terminal = (k.task x).terminal := by
    show (Function.update k.task k.running
      { k.task k.running with vidmapEnabled := true } x).terminal = _
    by_cases hx : x = k.running
    · rw [hx, Function.update_self]
    · rw [Function.update_of_ne hx]
  rw [OwnsTerminal, OwnsTerminal, hv, hf, ht]

theorem Scheduled.owned (h : Scheduled noise k k') (ho : k.Owned) : k'.Owned :=
  ho.congr (fun x t => by rw [OwnsTerminal, OwnsTerminal, h.task]) h.opened fun t => by rw [h.term]

/-- The owners behind a launch. -/
theorem Launched.ownsTerminal {a : ExecuteArgs} (h : Launched k a x k') (y : TaskId) (t : TermId) :
    k'.OwnsTerminal y t ↔
      k.OwnsTerminal y t ∨ y = x ∧ a.newTerminal = true ∧ k.launchTerminal a = some t := by
  by_cases hy : y = x
  · subst hy
    have hfresh : ¬ k.OwnsTerminal y t := by
      rintro ⟨hv, -⟩
      rw [h.fresh] at hv
      cases hv
    unfold OwnsTerminal
    rw [h.valid, h.flags, h.terminal]
    constructor
    · exact fun hown => Or.inr ⟨rfl, hown.2.1, hown.2.2⟩
    · rintro (hown | hown)
      · exact absurd hown hfresh
      · exact ⟨rfl, hown.2.1, hown.2.2⟩
  · rw [ownsTerminal_congr (h.held hy).1 fun _ => (h.held hy).2]
    exact ⟨Or.inl, fun hown => hown.resolve_right fun hnew => hy hnew.1⟩

/-- A launch with a new terminal takes a free one; any other leaves the terminals alone. -/
theorem Launched.owned {a : ExecuteArgs} (h : Launched k a x k') (ho : k.Owned) : k'.Owned := by
  have hterm : ∀ t, ¬ (a.newTerminal = true ∧ k.launchTerminal a = some t) →
      k'.term (some t) = k.term (some t) :=
    fun t hn => h.term (some t) fun hnew he => hn ⟨hnew, he⟩
  have hnew : ∀ t, a.newTerminal = true ∧ k.launchTerminal a = some t →
      (k.term (some t)).valid = false ∧ (k'.term (some t)).valid = true := by
    rintro t ⟨hn, ht⟩
    obtain ⟨t', win, ht', hv, hterm'⟩ := h.newTerm hn
    obtain rfl : t = t' := Option.some.inj (ht.symm.trans ht')
    exact ⟨hv, by rw [hterm']; rfl⟩
  have hold : ∀ y t, k.OwnsTerminal y t →
    ¬ (a.newTerminal = true ∧ k.launchTerminal a = some t) := by
    intro y t hown hn
    have hv := ho.valid y t hown
    rw [(hnew t hn).1] at hv
    cases hv
  refine ⟨fun t => ?_, fun t ht => ?_, fun y t hown => ?_, fun y z t hy hz => ?_⟩
  · rw [h.opened]
    by_cases hn : a.newTerminal = true ∧ k.launchTerminal a = some t
    · rw [decide_eq_true hn, Bool.or_true, (hnew t hn).2]
    · rw [decide_eq_false hn, Bool.or_false, hterm t hn, ho.opened]
  · by_cases hn : a.newTerminal = true ∧ k.launchTerminal a = some t
    · exact ⟨x, (h.ownsTerminal x t).mpr (Or.inr ⟨rfl, hn⟩)⟩
    · rw [hterm t hn] at ht
      obtain ⟨y, hy⟩ := ho.owned t ht
      exact ⟨y, (h.ownsTerminal y t).mpr (Or.inl hy)⟩
  · rcases (h.ownsTerminal y t).mp hown with hy | ⟨-, hn⟩
    · rw [hterm t (hold y t hy)]
      exact ho.valid y t hy
    · exact (hnew t hn).2
  · rcases (h.ownsTerminal y t).mp hy with hy | ⟨rfl, hn⟩ <;>
      rcases (h.ownsTerminal z t).mp hz with hz | ⟨rfl, hn'⟩
    · exact ho.unique y z t hy hz
    · exact absurd hn' (hold y t hy)
    · exact absurd hn (hold z t hz)
    · rfl

/-- The owners behind the end of a task. -/
theorem TornDown.ownsTerminal (h : TornDown x k k') (y : TaskId) (t : TermId) :
    k'.OwnsTerminal y t ↔ k.OwnsTerminal y t ∧ y ≠ x := by
  by_cases hy : y = x
  · subst hy
    refine iff_of_false (fun hown => ?_) fun hown => hown.2 rfl
    rw [OwnsTerminal, h.dead] at hown
    cases hown.1
  · rw [ownsTerminal_congr (h.held hy).1 fun _ => (h.held hy).2]
    exact (and_iff_left hy).symm

/-- The end of a task frees the terminal that it owns. -/
theorem TornDown.ownership (h : TornDown x k k') (ho : k.Owned) : k'.Owned := by
  have hunique : ∀ y z t, k'.OwnsTerminal y t → k'.OwnsTerminal z t → y = z := fun y z t hy hz =>
    ho.unique y z t ((h.ownsTerminal y t).mp hy).1 ((h.ownsTerminal z t).mp hz).1
  cases howner : (k.task x).flags.terminalOwner with
  | false =>
    obtain ⟨hterm, hopen, -, -⟩ := h.shared howner
    refine ho.congr (fun y t => ?_) hopen fun t => by rw [hterm]
    rw [h.ownsTerminal]
    refine and_iff_left_of_imp fun hown => ?_
    rintro rfl
    rw [OwnsTerminal, howner] at hown
    cases hown.2.1
  | true =>
    obtain ⟨t, ht, -, -, hterm, hopen, -⟩ := h.owned howner
    have hx : k.OwnsTerminal x t := ⟨h.valid, howner, ht⟩
    have hother : ∀ u, u ≠ t → k'.term (some u) = k.term (some u) := by
      intro u hu
      rw [hterm, Function.update_of_ne (by simpa using hu)]
    have hgone : (k'.term (some t)).valid = false := by
      rw [hterm, Function.update_self]
    refine ⟨fun u => ?_, fun u hu => ?_, fun y u hy => ?_, hunique⟩
    · rw [hopen]
      by_cases hut : u = t
      · rw [hut, Function.update_self, hgone]
      · rw [Function.update_of_ne hut, hother u hut, ho.opened]
    · have hut : u ≠ t := by
        rintro rfl
        rw [hgone] at hu
        cases hu
      rw [hother u hut] at hu
      obtain ⟨y, hy⟩ := ho.owned u hu
      refine ⟨y, (h.ownsTerminal y u).mpr ⟨hy, ?_⟩⟩
      rintro rfl
      exact hut (Option.some.inj (hy.2.2.symm.trans ht))
    · obtain ⟨hy, hne⟩ := (h.ownsTerminal y u).mp hy
      have hut : u ≠ t := by
        rintro rfl
        exact hne (ho.unique y x u hy hx)
      rw [hother u hut]
      exact ho.valid y u hy

theorem Halted.owned {status : BitVec 32} (h : Halted noise status k k') (ho : k.Owned) :
    k'.Owned := by
  cases h with
  | toParent p k₁ hp ht h =>
    exact (ht.ownership ho).congr (fun x t => by rw [OwnsTerminal, OwnsTerminal, h.task]) h.opened
      fun t => by rw [h.term]
  | alone k₁ hp ht h hne => exact h.owned (ht.ownership ho)

theorem Effect.owned (h : Effect img k₀ l k') (ho : k₀.Owned) : k'.Owned := by
  cases h with
  | kept h => exact h.owned ho
  | vidmap k₁ hk t ht h =>
    rw [h]
    exact (quiet_ret _ _).kept.owned ((hk.owned ho).vidmapped t)
  | scheduled k₁ hk h => exact h.owned (hk.owned ho)
  | launched k₁ hk a x ha hl h => exact h.owned (hk.owned ho)
  | halted k₁ hk cause hc h => exact h.owned (hk.owned ho)
  | closed k₁ hk x hc h => exact h.ownership (hk.owned ho)

/-! ## Every call -/

/-- A launch that is called for outside a step is one of a task with a terminal of its own. -/
def LaunchesOwner (c : Call) : Prop := ∀ a ∈ c.executeArgs, a.newTerminal = true

instance (c : Call) : Decidable (LaunchesOwner c) := inferInstanceAs (Decidable (∀ a ∈ _, _))

theorem call_owned {c : Call} (hs : k.Sound) (ho : k.Owned) (hc : LaunchesOwner c)
    (h : k.call img c = .ok k') : k'.Sound ∧ k'.Owned := by
  cases c with
  | execute noise a =>
    rcases systemExecute_sound img noise hs (not_slotLeaks (Or.inr (hc a rfl))) with
      ⟨-, k₁, hrun, hu⟩ | ⟨-, x, k₁, hrun, hl⟩
    · simp only [call, hrun] at h
      cases h
      have hk := hu.kept.trans (quiet_ret k₁ (-1)).kept
      exact ⟨hk.sound hs, hk.owned ho⟩
    · simp only [call, hrun] at h
      cases h
      exact ⟨hl.sound hs, hl.owned ho⟩
  | halt noise status =>
    have hh := systemHalt_halted h hs.running
    exact ⟨hh.sound hs, hh.owned ho⟩
  | haltTerminal noise t =>
    rcases taskHaltTerminal_cases h with hq | ⟨hfg, hsys⟩ | ⟨x, hfg, hne, ht⟩
    · exact ⟨hq.kept.sound hs, hq.kept.owned ho⟩
    · have hh := systemHalt_halted hsys hs.running
      exact ⟨hh.sound hs, hh.owned ho⟩
    · exact ⟨ht.sound hs hne.symm, ht.ownership ho⟩
  | step l => exact ⟨step_sound hs h, (step_effect hs h).owned ho⟩

theorem start_owned : start.Owned := by
  have hnone : ∀ x t, ¬ start.OwnsTerminal x t := by
    unfold OwnsTerminal
    decide +kernel
  have hfree : ∀ t, (start.term (some t)).valid = false := by decide +kernel
  refine ⟨by decide +kernel, fun t ht => ?_, fun x t hx => absurd hx (hnone x t),
    fun x _ t hx => absurd hx (hnone x t)⟩
  rw [hfree] at ht
  cases ht


/-- Two shells are started, and the window of the second one is closed. -/
def closeSecondShell : List Call :=
  (traceOf (firstTick ++ openShell)).map Call.step ++
    [.execute { eax := 7, stack := fun _ => 0 } shellArgs,
      .haltTerminal { eax := 7, stack := fun _ => 0 } 1]

end Kernel

end AuroraOS
