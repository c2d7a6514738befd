/-
# The owners of the terminals

The tasks of a terminal are a chain from its owner down to the foreground task, each the
parent of the next, and all but the last wait for their child.  The focus is on the
foreground task of a terminal, as long as there is one.
-/
import AuroraOS.WaitingFlags

namespace AuroraOS

open Ring Machine

namespace Kernel

variable {k k' k₀ : Kernel} {img : FsImage} {noise : Noise} {l : Label} {x y : TaskId}
variable {st : TermId → List TaskId} {place place' : TaskId → Option Sentinel} {t : TermId}

/-! ## The statement -/

/-- **The tasks `xs` of the terminal `t`**, from its owner down to the foreground task. -/
structure OwnerChain (k : Kernel) (t : TermId) (xs : List TaskId) : Prop where
  member : ∀ x, x ∈ xs ↔ (k.task x).valid = true ∧ (k.task x).terminal = some t
  nodup : xs.Nodup
  owner : ∀ x ∈ xs, (k.task x).flags.terminalOwner = true ↔ xs.head? = some x
  linked : xs.IsChain fun p x => (k.task x).parent = some p
  first : ∀ x, xs.head? = some x → (k.task x).parent = none
  last : xs ≠ [] ∧ k.terminalFgTask t = xs.getLast?
  waiting : ∀ x ∈ xs.dropLast, (k.task x).flags.waitingChild = true ∧
    x ∈ k.taskList .wait4childList

/-- **The terminals are owned**, and one of them has the focus. -/
structure TerminalsOwned (k : Kernel) : Prop where
  chain : ∀ u, (k.term (some u)).valid = true → ∃ xs, k.OwnerChain u xs
  unused : ∀ t, (k.term (some t)).valid = false → k.terminalFgTask t = none
  focus_none : k.focusTask = none ↔ ∀ t, (k.term (some t)).valid = false
  focus : ∀ f, k.focusTask = some f → (k.task f).valid = true ∧
    ∃ t, (k.term (some t)).valid = true ∧ k.terminalFgTask t = some f

/-- A task of a chain is the parent of one other. -/
theorem OwnerChain.parent_inj {xs : List TaskId} {p : TaskId} (h : k.OwnerChain t xs)
    (hx : x ∈ xs) (hy : y ∈ xs) (hxp : (k.task x).parent = some p)
    (hyp : (k.task y).parent = some p) : x = y := by
  have hbefore : ∀ z ∈ xs, (k.task z).parent = some p →
      ∃ i, ∃ hi : i + 1 < xs.length, xs[i + 1] = z ∧ xs[i] = p := by
    intro z hz hzp
    obtain ⟨i, hi, rfl⟩ := List.getElem_of_mem hz
    cases i with
    | zero =>
      rw [h.first _ (by rw [List.head?_eq_getElem?, List.getElem?_eq_getElem hi])] at hzp
      cases hzp
    | succ i =>
      have hlink := List.isChain_iff_getElem.mp h.linked i hi
      exact ⟨i, hi, rfl, Option.some.inj (hlink.symm.trans hzp)⟩
  obtain ⟨i, hi, rfl, hip⟩ := hbefore x hx hxp
  obtain ⟨j, hj, rfl, hjp⟩ := hbefore y hy hyp
  have hij : i = j := (h.nodup.getElem_inj_iff).mp (hip.trans hjp.symm)
  subst hij
  rfl

/-! ## The focus -/

/-- The focus stays on a task, unless the last terminal goes. -/
theorem Focused.of (hf : k.Focused)
    (hv : ∀ t, (k'.term (some t)).valid = true → (k.term (some t)).valid = true)
    (h : k.focusTask ≠ none → k'.focusTask ≠ none) : k'.Focused :=
  fun t ht => h (hf t (hv t ht))

theorem Calm.focused (h : Calm k k') (hf : k.Focused) : k'.Focused :=
  hf.of (fun t ht => (h.term (some t)).valid ▸ ht) fun hne => h.focusTask ▸ hne

theorem Scheduled.focused (h : Scheduled noise k k') (hf : k.Focused) : k'.Focused :=
  hf.of (fun _ ht => h.term ▸ ht) fun hne => h.focusTask ▸ hne

theorem rtcLoop_focus {n : ℕ} {m' : Kernel} {w w' : ℕ} {node : ListNode}
    (h : rtcLoop n k w node = .ok (m', w')) : m'.focusTask = k.focusTask := by
  refine rtcLoop_induction (P := fun m => m.focusTask = k.focusTask) (fun m w x m' w' hm hx => ?_)
    rfl h
  rcases rtcTick_cases hx with ⟨-, -, rfl⟩ | ⟨-, -, p, -, rfl⟩ <;> exact hm

/-- When a task has ended, the focus is on a task, or no terminal is left. -/
theorem TornDown.focused (h : TornDown x k k') (hs' : k'.Stacked st) (hf : k.Focused) :
    k'.Focused := by
  cases ho : (k.task x).flags.terminalOwner with
  | true =>
    obtain ⟨t, -, hfg, ⟨y, -, hfy⟩, -, -, -⟩ := h.owned ho
    intro u hu
    rw [hfy]
    by_cases hyt : (k.task y).terminal = some t
    · rw [if_pos hyt]
      cases ha : k.getAnotherTermId t with
      | some v => exact (getAnotherTermId_some ha).2
      | none =>
        -- no other terminal has a foreground task
        have hne := (hs'.term u).mp hu
        have hfgu : k'.terminalFgTask u ≠ none := by
          rw [hs'.fg]
          simpa using hne
        rw [hfg] at hfgu
        by_cases hut : u = t
        · rw [hut, Function.update_self] at hfgu
          exact absurd rfl hfgu
        · rw [Function.update_of_ne hut] at hfgu
          exact absurd (getAnotherTermId_none ha hut) hfgu
    · rw [if_neg hyt]
      exact Option.some_ne_none y
  | false =>
    obtain ⟨hterm, -, -, ⟨-, -, hfocus⟩ | ⟨p, t, y, -, -, -, -, hfocus⟩⟩ := h.shared ho
    · exact hf.of (fun t ht => hterm ▸ ht) fun hne => hfocus ▸ hne
    · intro u _
      rw [hfocus]
      split <;> exact Option.some_ne_none _

/-- **Every step keeps the focus on a task**, as long as there is a terminal. -/
theorem Outcome.focused (h : Outcome img k₀ l (k₀.entered l) k') (hk₀ : k₀.Sound)
    (hs₀ : k₀.Shaped st place) (hr₀ : place k₀.running = some .runQueue) (hf₀ : k₀.Focused) :
    k'.Focused := by
  have hent := k₀.quiet_entered l
  have hk := hent.toCalm.sound hk₀
  have hs := hent.toCalm.shaped hs₀
  have hf := hent.focused hf₀
  cases h with
  | quiet h => exact h.focused hf
  | vidmap t ht h => exact h ▸ hf
  | lineRead h => exact h.toCalm.focused hf
  | readWaits nbytes term hb he hu h =>
    have hshape := readBegin_shape ((k₀.entered l).term (k₀.entered l).runningTask.terminal) nbytes
    rw [hb] at hshape
    exact h.focused ((calm_modifyTerm _ _ hshape).focused hf)
  | rtcWaits counter hu h => exact h.focused hf
  | yields k₁ hq h =>
    refine h.focused ((hq.focused hf).of ?_ ?_)
    · unfold schedMoveRunningToLast
      split <;> exact fun _ => id
    · unfold schedMoveRunningToLast
      split <;> exact id
  | rtc k₁ wakeCount hl he h =>
    have hf₁ : k₁.Focused := hf.of (fun t ht => (rtcLoop_kept hl).term (some t) ▸ ht)
      fun hne => rtcLoop_focus hl ▸ hne
    rcases h with ⟨-, rfl⟩ | ⟨-, h⟩
    · exact hf₁
    · exact h.focused hf₁
  | key k₁ f kb kb' code term effect hfocus hp he h hw =>
    have hf₁ : k₁.Focused := by
      intro t _
      rw [h.calm.focusTask]
      exact Option.some_ne_none _
    rcases hw with ⟨-, rfl⟩ | ⟨-, -, hsched⟩
    · exact hf₁
    · exact hsched.focused hf₁
  | raised g f hg hraised h =>
    refine h.focused (hf.of (fun _ => id) fun hne => ?_)
    show f ≠ none
    rcases hraised with ⟨rfl, -⟩ | ⟨t, -, rfl, -⟩
    · exact hne
    · intro hnone
      exact hne (Option.or_eq_none_iff.mp hnone).2
  | refused k₁ k₂ hq h hq' =>
    refine hq'.focused ((hq.focused hf).of (fun t ht => h.kept.term (some t) ▸ ht) fun hne => ?_)
    rw [h.focusTask]
    exact hne
  | launched k₁ a x ha hq _ hl h =>
    have hk₁ := hq.toCalm.sound hk
    have ha₁ : k₁.UserCall a :=
      ((hent.kept.trans hq.kept).userCall hk₀.running).mpr (userCall_of_executes ha)
    obtain ⟨t, ht, -⟩ := launchTerminal_cases (hq.toCalm.shaped hs).stacked hk₁.taskCount_pos ha₁ h
      hk₁.running
    intro u _
    rw [h.focus hk₁.windowed, ht]
    exact Option.some_ne_none x
  | halted k₁ cause hcause hq h =>
    obtain ⟨t, ht⟩ := hs₀.halting_top hk₀ hr₀ hcause
    have hrun : k₁.running = k₀.running := by rw [hq.running, hent.running]
    rw [← hrun] at ht
    have hs₁ := (hq.toCalm.shaped hs).stacked
    cases h with
    | toParent p k₂ hp htorn h =>
      exact (htorn.focused (htorn.stacked hs₁ ht) (hq.focused hf)).of (fun t ht => h.term ▸ ht)
        fun hne => h.focusTask ▸ hne
    | alone k₂ hp htorn h hne =>
      exact h.focused (htorn.focused (htorn.stacked hs₁ ht) (hq.focused hf))
  | closed k₁ x hclose hq h =>
    obtain ⟨t, ht⟩ := closes_fg hclose
    rw [hs₀.stacked.fg] at ht
    exact h.focused (h.stacked (hq.toCalm.shaped hs).stacked ht) (hq.focused hf)

/-! ## The invariant -/

/-- The stacks and the places of the tasks, with the flags of those that wait for a child, and
the focus. -/
structure InOwnership (k : Kernel) (st : TermId → List TaskId)
    (place : TaskId → Option Sentinel) : Prop where
  shaped : k.Shaped st place
  running : place k.running = some .runQueue
  flagged : k.Flagged place .wait4childList
  focused : k.Focused

theorem InOwnership.step (h : k.InOwnership st place) (hk : k.Sound) (hc : KeepsRings k l)
    (ht : k.step img l = .ok k') : ∃ st' place', k'.InOwnership st' place' := by
  have hout := step_outcome hk ht
  obtain ⟨st', place', hs', hr', hm⟩ := hout.placed hk h.shaped h.running hc
  refine ⟨st', place', hs', hr', ?_, hout.focused hk h.shaped h.running h.focused⟩
  exact hm.flagged h.shaped.listed (fun x hx => (hs'.listed.valid x).mp hx) (Or.inl rfl) h.flagged
    fun he => by cases he

/-- Only the last task of a chain owns the terminal. -/
theorem chained_owner {xs : List TaskId} (hc : k.Chained xs) (hnd : xs.Nodup) :
    ∀ x ∈ xs, (k.task x).flags.terminalOwner = true ↔ xs.getLast? = some x := by
  induction xs with
  | nil => intro x hx; cases hx
  | cons z zs ih =>
    cases zs with
    | nil =>
      intro x hx
      obtain rfl : x = z := by simpa using hx
      simp [hc.2]
    | cons p rest =>
      have hnd' := List.nodup_cons.mp hnd
      intro x hx
      rw [List.getLast?_cons_cons]
      rcases List.mem_cons.mp hx with rfl | hx
      · rw [hc.1.2]
        refine ⟨fun he => (by cases he), fun hlast => ?_⟩
        exact absurd (List.mem_of_getLast? hlast) hnd'.1
      · exact ih hc.2 hnd'.2 x hx

/-- The tasks of a chain are linked by their parents, and the last one has none. -/
theorem chained_parents {xs : List TaskId} (hc : k.Chained xs) :
    xs.IsChain (fun x p => (k.task x).parent = some p) ∧
      ∀ x, xs.getLast? = some x → (k.task x).parent = none := by
  induction xs with
  | nil => exact ⟨List.isChain_nil, fun x hx => by cases hx⟩
  | cons z zs ih =>
    cases zs with
    | nil =>
      refine ⟨List.isChain_singleton z, fun x hx => ?_⟩
      obtain rfl : z = x := by simpa using hx
      exact hc.1
    | cons p rest =>
      obtain ⟨hchain, hlast⟩ := ih hc.2
      refine ⟨List.isChain_cons_cons.mpr ⟨hc.1.1, hchain⟩, fun x hx => hlast x ?_⟩
      rwa [List.getLast?_cons_cons] at hx

theorem InOwnership.ownerChain (h : k.InOwnership st place)
    (ht : (k.term (some t)).valid = true) : k.OwnerChain t (st t).reverse := by
  have hs := h.shaped.stacked
  obtain ⟨hparents, hfirst⟩ := chained_parents (hs.chain t)
  have hne := (hs.term t).mp ht
  refine ⟨fun x => ?_, List.nodup_reverse.mpr (hs.nodup t), fun x hx => ?_,
    List.isChain_reverse.mpr hparents, fun x hx => ?_, ⟨by simpa using hne, ?_⟩, fun x hx => ?_⟩
  · rw [List.mem_reverse, hs.member]
  · rw [List.head?_reverse]
    exact chained_owner (hs.chain t) (hs.nodup t) x (List.mem_reverse.mp hx)
  · rw [List.head?_reverse] at hx
    exact hfirst x hx
  · rw [List.getLast?_reverse, hs.fg]
  · rw [List.dropLast_reverse, List.mem_reverse] at hx
    have hplace := (h.shaped.listed.waiting x).mpr ⟨t, hx⟩
    have hv := ((hs.member t x).mp (List.mem_of_mem_tail hx)).1
    exact ⟨(h.flagged x hv).mpr hplace, (mem_taskList h.shaped.listed.places x _).mpr hplace⟩

theorem InOwnership.terminalsOwned (h : k.InOwnership st place) : k.TerminalsOwned := by
  have hs := h.shaped.stacked
  have hempty : ∀ t, (k.term (some t)).valid = false ↔ st t = [] := by
    intro t
    rw [← Bool.not_eq_true, hs.term, not_not]
  refine ⟨fun t ht => ⟨_, h.ownerChain ht⟩, fun t ht => ?_, ⟨fun hnone t => ?_, fun hall => ?_⟩,
    fun f hf => ?_⟩
  · rw [hs.fg, (hempty t).mp ht]
    rfl
  · cases ht : (k.term (some t)).valid with
    | false => rfl
    | true => exact absurd hnone (h.focused t ht)
  · cases hf : k.focusTask with
    | none => rfl
    | some f =>
      obtain ⟨t, ht⟩ := hs.focus f hf
      rw [(hempty t).mp (hall t)] at ht
      cases ht
  · obtain ⟨t, ht⟩ := hs.focus f hf
    refine ⟨(hs.head ht).1, t, (hs.term t).mpr ?_, (hs.fg t).trans ht⟩
    exact List.ne_nil_of_mem (List.mem_of_head? ht)

/-! ## Runs -/

theorem start_inOwnership : ∃ st place, start.InOwnership st place := by
  obtain ⟨st, place, hs⟩ := start_inFlags
  have hterm : ∀ t, (start.term (some t)).valid = false := by decide +kernel
  refine ⟨st, place, hs.shaped, hs.running, hs.flagged _ (Or.inl rfl), fun t ht => ?_⟩
  rw [hterm t] at ht
  cases ht

/-- The shell, broken loose by the key, starts `cat` and is still on the run queue: it starts
`cat` again while the first one sleeps. -/
def catTwice : List Event :=
  closeAndEnter ++ [.resume, .resume, .resume, .execute catCommand, .read 0 false 128, .resume,
    .resume, .read 0 false 128, .resume, .resume, .resume, .execute catCommand]

end Kernel

end AuroraOS
