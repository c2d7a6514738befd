/-
# The user mapping of video memory

The entry for 132-136MB should follow the running task.  The scheduler sets it, and so
does `system_vidmap`; `system_execute` and `system_halt` switch tasks without it.  It
follows the running task as long as no task that has mapped video memory starts another,
and no task halts back to a parent with a different mapping.
-/
import AuroraOS.Effects

namespace AuroraOS

open Ring Machine

/-- The mapping that a task should find. -/
def Task.view (t : Task) : Pde4kB :=
  match t.terminal with
  | some u => if t.vidmapEnabled then setPDE4kB (.userVideoMemory u) true true true else clearPDE4kB
  | none => clearPDE4kB

theorem Task.SameHoldings.view {t t' : Task} (h : t.SameHoldings t') : t'.view = t.view := by
  unfold Task.view
  rw [h.terminal, h.vidmapEnabled]

namespace Kernel

variable {k k' k₀ : Kernel} {img : FsImage} {noise : Noise} {l : Label} {x : TaskId}

/-! ## The statement -/

/-- **The entry for 132-136MB belongs to the running task.** -/
structure VidmapFollows (k : Kernel) : Prop where
  on : k.runningTask.vidmapEnabled = true → ∃ t, k.runningTask.terminal = some t ∧
    k.vidmem.vidmapEntry.present = true ∧
      k.vidmem.vidmapEntry.baseAddress = some (.userVideoMemory t)
  off : k.runningTask.vidmapEnabled = false → k.vidmem.vidmapEntry.present = false

/-- No task with a mapping starts another, and no task halts to a parent with a different
mapping. -/
def KeepsVidmap (img : FsImage) (k : Kernel) (l : Label) : Prop :=
  (∀ a ∈ k.executes l, k.Launches img a l.noise → k.runningTask.vidmapEnabled = false) ∧
    ∀ p ∈ k.runningTask.parent, k.halts l ≠ none → (k.task p).view = k.runningTask.view

instance (img : FsImage) (k : Kernel) (l : Label) : Decidable (KeepsVidmap img k l) :=
  inferInstanceAs (Decidable (_ ∧ _))

/-! ## The invariant -/

/-- Only a task with a terminal has mapped video memory. -/
def VidmapOwned (k : Kernel) : Prop :=
  ∀ x, (k.task x).valid = true → (k.task x).vidmapEnabled = true → (k.task x).terminal ≠ none

/-- The entry is that of the running task. -/
def Follows (k : Kernel) : Prop := k.vidmem.vidmapEntry = k.runningTask.view

theorem Follows.vidmapFollows (h : k.Follows) (ho : k.VidmapOwned) (hs : k.Sound) :
    k.VidmapFollows := by
  unfold Follows Task.view at h
  constructor
  · intro hon
    obtain ⟨t, ht⟩ := Option.ne_none_iff_exists'.mp (ho _ hs.running hon)
    have hon' : k.runningTask.vidmapEnabled = true := hon
    have ht' : k.runningTask.terminal = some t := ht
    simp only [ht', hon', if_true] at h
    exact ⟨t, ht, by rw [h]; rfl, by rw [h]; rfl⟩
  · intro hoff
    rw [h]
    cases k.runningTask.terminal with
    | none => rfl
    | some t =>
      rw [hoff]
      rfl

/-- The scheduler applies the mapping that the task should find. -/
theorem vidmapView_eq (ho : k.VidmapOwned) (hx : (k.task x).valid = true) :
    k.vidmapView x = (k.task x).view := by
  unfold vidmapView Task.view
  cases ht : (k.task x).terminal with
  | some t => rfl
  | none =>
    cases hon : (k.task x).vidmapEnabled with
    | true => exact absurd ht (ho x hx hon)
    | false => rfl

theorem Kept.vidmapOwned (h : Kept k k') (ho : k.VidmapOwned) : k'.VidmapOwned := by
  intro x hx hon
  have hx' : (k.task x).valid = true := (h.valid x).symm.trans hx
  rw [(h.held x hx').terminal]
  exact ho x hx' ((h.held x hx').vidmapEnabled ▸ hon)

theorem Kept.follows (h : Kept k k') (hs : k.Sound) (hf : k.Follows) : k'.Follows := by
  unfold Follows runningTask at hf ⊢
  rw [h.vidmapEntry, h.running, (h.held _ hs.running).view, hf]

theorem vidmapOwned_vidmapped {t : TermId} (ho : k.VidmapOwned)
    (ht : k.runningTask.terminal = some t) : (k.vidmapped t).VidmapOwned := by
  intro x
  show ((k.modifyTask k.running fun t => { t with vidmapEnabled := true }).task x).valid = true → _
  by_cases hx : x = k.running
  · subst hx
    intro _ _
    show ((k.modifyTask k.running fun t => { t with vidmapEnabled := true }).task
      k.running).terminal
      ≠ none
    simp only [modifyTask_task, Function.update_self]
    exact Option.ne_none_iff_exists'.mpr ⟨t, ht⟩
  · intro hv hon
    show ((k.modifyTask k.running fun t => { t with vidmapEnabled := true }).task x).terminal ≠ none
    have hsame : (k.modifyTask k.running fun t => { t with vidmapEnabled := true }).task x
        = k.task x := Function.update_of_ne hx _ _
    have hon' : (k.task x).vidmapEnabled = true := by
      rw [← hsame]
      exact hon
    rw [hsame] at hv ⊢
    exact ho x hv hon'

theorem follows_vidmapped {t : TermId} (ht : k.runningTask.terminal = some t) :
    (k.vidmapped t).Follows := by
  have hrun : (k.vidmapped t).runningTask = { k.runningTask with vidmapEnabled := true } :=
    Function.update_self _ _ _
  unfold Follows Task.view
  rw [hrun]
  show setPDE4kB (.userVideoMemory t) true true true = _
  simp only [ht, if_true]

theorem Scheduled.vidmapOwned (h : Scheduled noise k k') (ho : k.VidmapOwned) :
    k'.VidmapOwned := by
  unfold VidmapOwned
  rw [h.task]
  exact ho

theorem Scheduled.follows (h : Scheduled noise k k') (ho : k.VidmapOwned)
    (hf : k'.running = k.running → k.Follows) : k'.Follows := by
  by_cases hr : k'.running = k.running
  · unfold Follows runningTask
    rw [(h.stay hr).2.2, h.task, hr]
    exact hf hr
  · obtain ⟨hv, -, hentry, -⟩ := h.switch hr
    unfold Follows runningTask
    rw [hentry, vidmapView_eq ho hv, h.task]

theorem Launched.vidmapOwned {a : ExecuteArgs} (h : Launched k a x k') (ho : k.VidmapOwned) :
    k'.VidmapOwned := by
  intro y hy hon
  by_cases hne : y = x
  · rw [hne, h.vidmap] at hon
    cases hon
  · rw [(h.held hne).2.terminal]
    exact ho y ((h.held hne).1 ▸ hy) ((h.held hne).2.vidmapEnabled ▸ hon)

/-- A new task finds the entry as its starter left it. -/
theorem Launched.follows {a : ExecuteArgs} (h : Launched k a x k') (hf : k.Follows)
    (hoff : k.runningTask.vidmapEnabled = false) : k'.Follows := by
  have hclear : ∀ t : Task, t.vidmapEnabled = false → t.view = clearPDE4kB := by
    intro t ht
    unfold Task.view
    rw [ht]
    cases t.terminal <;> rfl
  unfold Follows at hf ⊢
  rw [h.vidmapEntry, hf, hclear _ hoff, hclear]
  rw [runningTask, h.running, h.vidmap]

theorem TornDown.vidmapOwned (h : TornDown x k k') (ho : k.VidmapOwned) : k'.VidmapOwned := by
  intro y hy hon
  obtain ⟨hv, hne⟩ := (h.valid_iff y).mp hy
  rw [(h.held hne).2.terminal]
  exact ho y hv ((h.held hne).2.vidmapEnabled ▸ hon)

theorem TornDown.follows (h : TornDown x k k') (hf : k.Follows) (hx : k.running ≠ x) :
    k'.Follows := by
  unfold Follows runningTask at hf ⊢
  rw [h.vidmapEntry, h.running, (h.held hx).2.view, hf]

/-! ## The condition behind the entry code -/

theorem Kept.refused_iff (h : Kept k k') (hs : k.Sound) (a : ExecuteArgs) :
    k'.Refused a ↔ k.Refused a := by
  unfold Refused runningTask
  rw [h.taskCount, h.running, (h.held _ hs.running).terminal]

theorem Kept.launches (h : Kept k k') (hs : k.Sound) {a : ExecuteArgs}
    (hl : k'.Launches img a noise) : k.Launches img a noise := by
  obtain ⟨hcount, hrefused, hrejected, huser⟩ := hl
  have hfree : k'.freeTerminal = k.freeTerminal := by
    unfold freeTerminal
    simp only [h.term]
  rw [h.taskCount] at hcount
  rw [h.refused_iff hs] at hrefused
  unfold Rejected at hrejected
  rw [h.taskCount] at hrejected
  rw [hfree] at huser
  unfold Loadable at huser
  rw [h.paging] at huser
  exact ⟨hcount, hrefused, hrejected, huser⟩

/-- **A step that meets the condition leaves the entry of the running task.** -/
theorem Effect.follows (h : Effect img k₀ l k') (hs : k₀.Sound) (ho : k₀.VidmapOwned)
    (hf : k₀.Follows) (hc : KeepsVidmap img k₀ l) : k'.VidmapOwned ∧ k'.Follows := by
  obtain ⟨hexecutes, hhalts⟩ := hc
  cases h with
  | kept h => exact ⟨h.vidmapOwned ho, h.follows hs hf⟩
  | vidmap k₁ hk t ht h =>
    rw [h]
    exact ⟨(quiet_ret _ _).kept.vidmapOwned (vidmapOwned_vidmapped (hk.vidmapOwned ho) ht),
      (quiet_ret _ _).kept.follows (sound_vidmapped (hk.sound hs)) (follows_vidmapped ht)⟩
  | scheduled k₁ hk h =>
    exact ⟨h.vidmapOwned (hk.vidmapOwned ho), h.follows (hk.vidmapOwned ho) fun _ =>
      hk.follows hs hf⟩
  | launched k₁ hk a x ha hl h =>
    refine ⟨h.vidmapOwned (hk.vidmapOwned ho), h.follows (hk.follows hs hf) ?_⟩
    rw [runningTask, hk.running, (hk.held _ hs.running).vidmapEnabled]
    exact hexecutes a ha (hk.launches hs hl)
  | halted k₁ hk cause hc h =>
    have ho₁ := hk.vidmapOwned ho
    have hf₁ := hk.follows hs hf
    cases h with
    | toParent p k₂ hp ht h =>
      have ho₂ := ht.vidmapOwned ho₁
      have hpv := (ht.valid_iff p).mp h.valid
      have hpv₀ : (k₀.task p).valid = true := (hk.valid p).symm.trans hpv.1
      have hparent : k₀.runningTask.parent = some p := by
        rw [hk.running, (hk.held _ hs.running).parent] at hp
        exact hp
      have hview := hhalts p hparent (by simp [hc])
      refine ⟨?_, ?_⟩
      · unfold VidmapOwned
        rw [h.task]
        exact ho₂
      · have hback : (k₂.task p).view = k₀.runningTask.view := by
          rw [(ht.held hpv.2).2.view, (hk.held p hpv₀).view, hview]
        unfold Follows runningTask at hf ⊢
        rw [h.vidmapEntry, ht.vidmapEntry, hk.vidmapEntry, h.running, h.task, hback]
        exact hf
    | alone k₂ hp ht h hne =>
      have ho₂ := ht.vidmapOwned ho₁
      exact ⟨h.vidmapOwned ho₂, h.follows ho₂ fun hr => absurd (hr.trans ht.running) hne⟩
  | closed k₁ hk x hc h =>
    refine ⟨h.vidmapOwned (hk.vidmapOwned ho), h.follows (hk.follows hs hf) ?_⟩
    rw [hk.running]
    exact (closes_ne_running hc).symm

/-- The shell maps video memory, and goes on through a tick. -/
def mapAndTick : List Event :=
  firstTick ++ openShell ++ [.vidmap 0x08000100, .resume, .resume, .pit, .resume]

end Kernel

end AuroraOS
