/-
# The tasks of a terminal

The user tasks that share a terminal form a stack: the foreground task first, behind it
its parent, and so on down to the owner of the terminal, which has no parent.  A task is
started on top of a stack and ends on top of one, and the focus is on a top.
-/
import AuroraOS.Effects

namespace AuroraOS

open Ring Machine

namespace Kernel

variable {k k' k₀ : Kernel} {img : FsImage} {noise : Noise} {l : Label} {x y : TaskId}

/-! ## The stacks -/

/-- Each task is the child of the one behind it, and the last one owns the terminal. -/
def Chained (k : Kernel) : List TaskId → Prop
  | [] => True
  | [x] => (k.task x).parent = none ∧ (k.task x).flags.terminalOwner = true
  | x :: p :: rest => ((k.task x).parent = some p ∧ (k.task x).flags.terminalOwner = false) ∧
      Chained k (p :: rest)

/-- **The stacks `st` of the terminals.** -/
structure Stacked (k : Kernel) (st : TermId → List TaskId) : Prop where
  member : ∀ t x, x ∈ st t ↔ (k.task x).valid = true ∧ (k.task x).terminal = some t
  nodup : ∀ t, (st t).Nodup
  chain : ∀ t, k.Chained (st t)
  fg : ∀ t, k.terminalFgTask t = (st t).head?
  focus : ∀ f, k.focusTask = some f → ∃ t, (st t).head? = some f
  term : ∀ t, (k.term (some t)).valid = true ↔ st t ≠ []
  kernel : ∀ x, (k.task x).valid = true →
    ((k.task x).flags.kernelTask = true ↔ (k.task x).terminal = none)
  orphan : ∀ x, (k.task x).valid = true → (k.task x).flags.kernelTask = true →
    (k.task x).parent = none
  idle : ∃ z, (k.task z).valid = true ∧ (k.task z).flags.idleTask = true
  idleKernel : ∀ x, (k.task x).valid = true → (k.task x).flags.idleTask = true →
    (k.task x).flags.kernelTask = true

variable {st : TermId → List TaskId} {t : TermId}

theorem Stacked.head (hs : k.Stacked st) (hx : (st t).head? = some x) :
    (k.task x).valid = true ∧ (k.task x).terminal = some t :=
  (hs.member t x).mp (List.mem_of_head? hx)

/-- A task is on top of one stack only. -/
theorem Stacked.head_unique (hs : k.Stacked st) {u : TermId} (hx : (st t).head? = some x)
    (hy : (st u).head? = some x) : u = t :=
  Option.some.inj ((hs.head hy).2.symm.trans (hs.head hx).2)

/-- The task on top of a stack owns the terminal, or its parent is behind it. -/
theorem Stacked.top_cases (hs : k.Stacked st) (hx : (st t).head? = some x) :
    (st t = [x] ∧ (k.task x).parent = none ∧ (k.task x).flags.terminalOwner = true) ∨
    ∃ p rest, st t = x :: p :: rest ∧ (k.task x).parent = some p ∧
      (k.task x).flags.terminalOwner = false := by
  have hchain := hs.chain t
  obtain ⟨rest, hst⟩ := List.head?_eq_some_iff.mp hx
  rw [hst] at hchain ⊢
  cases rest with
  | nil => exact Or.inl ⟨rfl, hchain⟩
  | cons p rest => exact Or.inr ⟨p, rest, rfl, hchain.1⟩

/-- A user task that runs belongs to a terminal. -/
theorem Stacked.user_terminal (hs : k.Stacked st) (hv : (k.task k.running).valid = true)
    (hu : k.runningTask.flags.kernelTask = false) :
    ∃ t, k.runningTask.terminal = some t ∧ k.running ∈ st t := by
  have hterm : (k.task k.running).terminal ≠ none := by
    intro hnone
    have hkernel := (hs.kernel _ hv).mpr hnone
    rw [show (k.task k.running).flags.kernelTask = false from hu] at hkernel
    cases hkernel
  obtain ⟨t, ht⟩ := Option.ne_none_iff_exists'.mp hterm
  exact ⟨t, ht, (hs.member t _).mpr ⟨hv, ht⟩⟩

/-- A task on top of a stack is behind no other. -/
theorem Stacked.head_not_tail (hs : k.Stacked st) (hx : (st t).head? = some x) (u : TermId) :
    x ∉ (st u).tail := by
  intro hu
  have hxu := ((hs.member u x).mp (List.mem_of_mem_tail hu)).2
  obtain rfl : u = t := Option.some.inj (hxu.symm.trans (hs.head hx).2)
  obtain ⟨rest, hst⟩ := List.head?_eq_some_iff.mp hx
  have hnd := hs.nodup u
  rw [hst] at hu hnd
  exact (List.nodup_cons.mp hnd).1 hu

/-- Only the parents and the owner of a chain are looked at. -/
theorem chained_congr {xs : List TaskId} (h : ∀ x ∈ xs, (k'.task x).parent = (k.task x).parent ∧
      (k'.task x).flags.terminalOwner = (k.task x).flags.terminalOwner) (hc : k.Chained xs) :
    k'.Chained xs := by
  induction xs with
  | nil => trivial
  | cons x xs ih =>
    obtain ⟨hp, ho⟩ := h x List.mem_cons_self
    cases xs with
    | nil => exact ⟨hp.trans hc.1, ho.trans hc.2⟩
    | cons p rest =>
      exact ⟨⟨hp.trans hc.1.1, ho.trans hc.1.2⟩,
        ih (fun y hy => h y (List.mem_cons_of_mem _ hy)) hc.2⟩

/-! ## Steps that leave the stacks -/

/-- The same tasks and terminals, and the focus on a task that had it or on a top. -/
theorem Stacked.congr (hs : k.Stacked st) (hv : ∀ x, (k'.task x).valid = (k.task x).valid)
    (hh : ∀ x, (k.task x).valid = true → (k'.task x).parent = (k.task x).parent ∧
      (k'.task x).terminal = (k.task x).terminal ∧
      (k'.task x).flags.terminalOwner = (k.task x).flags.terminalOwner ∧
      (k'.task x).flags.kernelTask = (k.task x).flags.kernelTask ∧
      (k'.task x).flags.idleTask = (k.task x).flags.idleTask)
    (hfg : k'.terminalFgTask = k.terminalFgTask)
    (hfocus : ∀ f, k'.focusTask = some f → k.focusTask = some f ∨ ∃ t, k.terminalFgTask t = some f)
    (hterm : ∀ t, (k'.term (some t)).valid = (k.term (some t)).valid) : k'.Stacked st where
  member := by
    intro t x
    rw [hs.member, hv]
    exact and_congr_right fun hx => by rw [(hh x hx).2.1]
  nodup := hs.nodup
  chain := by
    intro t
    refine chained_congr (fun x hx => ?_) (hs.chain t)
    obtain ⟨hp, -, ho, -, -⟩ := hh x ((hs.member t x).mp hx).1
    exact ⟨hp, ho⟩
  fg := fun t => by rw [hfg, hs.fg]
  focus := by
    intro f hf
    rcases hfocus f hf with hf | ⟨t, ht⟩
    · exact hs.focus f hf
    · exact ⟨t, (hs.fg t).symm.trans ht⟩
  term := fun t => by rw [hterm, hs.term]
  kernel := by
    intro x hx
    rw [hv] at hx
    obtain ⟨-, ht, -, hk, -⟩ := hh x hx
    rw [ht, hk]
    exact hs.kernel x hx
  orphan := by
    intro x hx hk
    rw [hv] at hx
    obtain ⟨hp, -, -, hkt, -⟩ := hh x hx
    rw [hp, hs.orphan x hx (hkt ▸ hk)]
  idle := by
    obtain ⟨z, hz, hi⟩ := hs.idle
    exact ⟨z, (hv z).trans hz, (hh z hz).2.2.2.2.trans hi⟩
  idleKernel := by
    intro x hx hi
    rw [hv] at hx
    obtain ⟨-, -, -, hkt, hidle⟩ := hh x hx
    rw [hkt, hs.idleKernel x hx (hidle ▸ hi)]

theorem Kept.stacked (h : Kept k k') (hs : k.Stacked st) : k'.Stacked st :=
  hs.congr h.valid (fun x hx => ⟨(h.held x hx).parent, (h.held x hx).terminal,
    (h.held x hx).terminalOwner, (h.held x hx).kernelTask, (h.held x hx).idleTask⟩)
    h.terminalFgTask h.focus fun t => h.term (some t)

theorem Stacked.vidmapped (hs : k.Stacked st) (u : TermId) : (k.vidmapped u).Stacked st := by
  refine hs.congr (k.vidmapped_valid u) (fun x _ => ?_) rfl (fun _ => Or.inl) fun _ => rfl
  have htask : (k.vidmapped u).task = (k.modifyTask k.running fun t =>
      { t with vidmapEnabled := true }).task := rfl
  rw [htask, modifyTask_task]
  by_cases hx : x = k.running
  · rw [hx, Function.update_self]
    exact ⟨rfl, rfl, rfl, rfl, rfl⟩
  · rw [Function.update_of_ne hx]
    exact ⟨rfl, rfl, rfl, rfl, rfl⟩

theorem Scheduled.stacked (h : Scheduled noise k k') (hs : k.Stacked st) : k'.Stacked st := by
  refine hs.congr (fun x => by rw [h.task]) (fun x _ => ?_) h.terminalFgTask
    (fun f hf => Or.inl (h.focusTask ▸ hf)) fun t => by rw [h.term]
  rw [h.task]
  exact ⟨rfl, rfl, rfl, rfl, rfl⟩

theorem ToParent.stacked {p : TaskId} {status : BitVec 32} (h : ToParent p status x k k')
    (hs : k.Stacked st) : k'.Stacked st := by
  refine hs.congr (fun y => by rw [h.task]) (fun y _ => ?_) h.terminalFgTask
    (fun f hf => Or.inl (h.focusTask ▸ hf)) fun u => by rw [h.term]
  rw [h.task]
  exact ⟨rfl, rfl, rfl, rfl, rfl⟩

/-! ## A task is started -/

/-- A call of `system_execute` by a user program, or by the terminal button. -/
def UserCall (k : Kernel) (a : ExecuteArgs) : Prop :=
  a.kernelTask = false ∧ ((a.wait = 1 ∧ a.newTerminal = false ∧
    k.runningTask.flags.kernelTask = false) ∨ (a.wait = 0 ∧ a.newTerminal = true))

theorem userCall_of_executes {a : ExecuteArgs} (h : k₀.executes l = some a) : k₀.UserCall a := by
  unfold executes at h
  split at h
  · split at h
    · cases h
    · next hkt =>
      cases h
      exact ⟨rfl, Or.inl ⟨rfl, rfl, by simpa using hkt⟩⟩
  · split at h
    · cases h
      exact ⟨rfl, Or.inr ⟨rfl, rfl⟩⟩
    · cases h
  · cases h

theorem Kept.userCall (h : Kept k k') (hv : (k.task k.running).valid = true) {a : ExecuteArgs} :
    k'.UserCall a ↔ k.UserCall a := by
  unfold UserCall runningTask
  rw [h.running, (h.held _ hv).kernelTask]

/-- A task is put on top of the stack of a terminal. -/
def pushed (st : TermId → List TaskId) (o : Option TermId) (x : TaskId) (t : TermId) :
    List TaskId :=
  if o = some t then x :: st t else st t

/-- The terminal of a new task is that of its parent, or a free one. -/
theorem launchTerminal_cases (hs : k.Stacked st) (hc : k.taskCount ≠ 0) {a : ExecuteArgs}
    (ha : k.UserCall a) (h : Launched k a x k') (hr : (k.task k.running).valid = true) :
    ∃ t, k.launchTerminal a = some t ∧ ((a.wait = 1 ∧ a.newTerminal = false ∧ k.running ∈ st t) ∨
      (a.wait = 0 ∧ a.newTerminal = true ∧ st t = [])) := by
  obtain ⟨hk, ⟨hw, hn, hu⟩ | ⟨hw, hn⟩⟩ := ha
  · obtain ⟨t, ht, hmem⟩ := hs.user_terminal hr hu
    refine ⟨t, ?_, Or.inl ⟨hw, hn, hmem⟩⟩
    rw [launchTerminal, hk, hn, if_neg (by simp), if_neg (by simp), if_neg hc]
    exact ht
  · obtain ⟨t, win, ht, hfree, -⟩ := h.newTerm hn
    refine ⟨t, ht, Or.inr ⟨hw, hn, ?_⟩⟩
    by_contra hne
    rw [(hs.term t).mpr hne] at hfree
    cases hfree

/-- **A new task is on top of the stack of its terminal.** -/
theorem Launched.stacked {a : ExecuteArgs} (h : Launched k a x k') (hs : k.Stacked st)
    (hw : k.Windowed) (hr : (k.task k.running).valid = true) (hc : k.taskCount ≠ 0)
    (ha : k.UserCall a) (htop : ∀ t, k.running ∈ st t → (st t).head? = some k.running) :
    k'.Stacked (pushed st (k.launchTerminal a) x) := by
  obtain ⟨t, ht, hcase⟩ := launchTerminal_cases hs hc ha h hr
  have hne := h.fresh_ne_running hr
  have hfresh : ∀ u, x ∉ st u := by
    intro u hu
    have := ((hs.member u x).mp hu).1
    rw [h.fresh] at this
    cases this
  have hself : pushed st (k.launchTerminal a) x t = x :: st t := by rw [pushed, ht, if_pos rfl]
  have hother : ∀ u, u ≠ t → pushed st (k.launchTerminal a) x u = st u := by
    intro u hu
    rw [pushed, ht, if_neg fun he => hu (Option.some.inj he).symm]
  have hold : ∀ y, (k.task y).valid = true → (k.task y).SameHoldings (k'.task y) := by
    intro y hy
    refine (h.held ?_).2
    rintro rfl
    rw [h.fresh] at hy
    cases hy
  have hkind : (k'.task x).flags.kernelTask = false := by
    rw [h.flags]
    exact ha.1
  have hidle : (k'.task x).flags.idleTask = false := by
    rw [h.flags]
    show (a.wait == -1) = false
    rcases hcase with ⟨hwait, -, -⟩ | ⟨hwait, -, -⟩ <;> rw [hwait] <;> rfl
  have hmem : ∀ u y, y ∈ pushed st (k.launchTerminal a) x u ↔ (u = t ∧ y = x) ∨ y ∈ st u := by
    intro u y
    by_cases hu : u = t
    · rw [hu, hself, List.mem_cons]
      simp
    · rw [hother u hu]
      simp [hu]
  constructor
  case member =>
    intro u y
    rw [hmem]
    by_cases hy : y = x
    · rw [hy, h.valid, h.terminal, ht]
      simp only [hfresh u, and_true, or_false, true_and, Option.some.injEq]
      exact eq_comm
    · rw [(h.held hy).1, (h.held hy).2.terminal, hs.member]
      simp [hy]
  case nodup =>
    intro u
    by_cases hu : u = t
    · rw [hu, hself]
      exact List.nodup_cons.mpr ⟨hfresh t, hs.nodup t⟩
    · rw [hother u hu]
      exact hs.nodup u
  case chain =>
    intro u
    have hst : k'.Chained (st u) := by
      refine chained_congr (fun y hy => ?_) (hs.chain u)
      have hy' := hold y ((hs.member u y).mp hy).1
      exact ⟨hy'.parent, hy'.terminalOwner⟩
    by_cases hu : u = t
    · subst hu
      rw [hself]
      rcases hcase with ⟨hwait, hn, hrun⟩ | ⟨hwait, hn, hnil⟩
      · -- the parent of the new task is the running one, which is on top
        obtain ⟨rest, hrest⟩ := List.head?_eq_some_iff.mp (htop u hrun)
        rw [hrest] at hst ⊢
        refine ⟨⟨?_, ?_⟩, hst⟩
        · rw [h.parent, newParent, if_pos ⟨hc, hwait⟩]
        · rw [h.flags]
          exact hn
      · rw [hnil]
        refine ⟨?_, ?_⟩
        · rw [h.parent, newParent,
            if_neg fun hp => by rw [hwait] at hp; exact absurd hp.2 (by decide)]
        · rw [h.flags]
          exact hn
    · rw [hother u hu]
      exact hst
  case fg =>
    intro u
    rw [h.fg]
    by_cases hu : u = t
    · rw [hu, hself, if_pos ht]
      rfl
    · rw [hother u hu, if_neg fun he => hu (Option.some.inj (ht.symm.trans he)).symm, hs.fg]
  case focus =>
    intro f hf
    rw [h.focus hw, ht, if_neg (by simp)] at hf
    exact ⟨t, by rw [hself, ← hf]; rfl⟩
  case term =>
    intro u
    by_cases hu : u = t
    · subst hu
      rw [hself]
      simp only [ne_eq, reduceCtorEq, not_false_eq_true, iff_true]
      rcases hcase with ⟨-, hn, hrun⟩ | ⟨-, hn, -⟩
      · rw [h.term _ (fun hnew => by rw [hn] at hnew; cases hnew)]
        exact (hs.term u).mpr (List.ne_nil_of_mem hrun)
      · obtain ⟨t', win, ht', -, hterm⟩ := h.newTerm hn
        obtain rfl : u = t' := Option.some.inj (ht.symm.trans ht')
        rw [hterm]
        rfl
    · rw [hother u hu, h.term _ fun _ he => hu (Option.some.inj (ht.symm.trans he)).symm, hs.term]
  case kernel =>
    intro y hy
    by_cases hyx : y = x
    · rw [hyx, hkind, h.terminal, ht]
      simp
    · rw [(h.held hyx).2.kernelTask, (h.held hyx).2.terminal]
      exact hs.kernel y ((h.held hyx).1 ▸ hy)
  case orphan =>
    intro y hy hkt
    by_cases hyx : y = x
    · rw [hyx, hkind] at hkt
      cases hkt
    · rw [(h.held hyx).2.parent]
      exact hs.orphan y ((h.held hyx).1 ▸ hy) ((h.held hyx).2.kernelTask ▸ hkt)
  case idle =>
    obtain ⟨z, hz, hi⟩ := hs.idle
    have hzx : z ≠ x := by
      rintro rfl
      rw [h.fresh] at hz
      cases hz
    exact ⟨z, (h.held hzx).1.trans hz, (h.held hzx).2.idleTask.trans hi⟩
  case idleKernel =>
    intro y hy hi
    by_cases hyx : y = x
    · rw [hyx, hidle] at hi
      cases hi
    · rw [(h.held hyx).2.kernelTask]
      exact hs.idleKernel y ((h.held hyx).1 ▸ hy) ((h.held hyx).2.idleTask ▸ hi)

/-! ## A task ends -/

/-- The top is taken off the stack of a terminal. -/
def popped (st : TermId → List TaskId) (t u : TermId) : List TaskId :=
  if u = t then (st t).tail else st u

/-- **A task on top of a stack leaves it.** -/
theorem TornDown.stacked (h : TornDown x k k') (hs : k.Stacked st)
    (hx : (st t).head? = some x) : k'.Stacked (popped st t) := by
  obtain ⟨rest, hst⟩ := List.head?_eq_some_iff.mp hx
  obtain ⟨hxv, hxt⟩ := hs.head hx
  have hself : popped st t t = rest := by rw [popped, if_pos rfl, hst]; rfl
  have hother : ∀ u, u ≠ t → popped st t u = st u := fun u hu => by rw [popped, if_neg hu]
  have hnd := hst ▸ hs.nodup t
  have hmem : ∀ u y, y ∈ popped st t u ↔ y ∈ st u ∧ y ≠ x := by
    intro u y
    by_cases hu : u = t
    · rw [hu, hself, hst, List.mem_cons]
      constructor
      · intro hy
        exact ⟨Or.inr hy, fun he => (List.nodup_cons.mp hnd).1 (he ▸ hy)⟩
      · rintro ⟨hy | hy, hne⟩
        · exact absurd hy hne
        · exact hy
    · rw [hother u hu]
      refine ⟨fun hy => ⟨hy, ?_⟩, And.left⟩
      rintro rfl
      exact hu (Option.some.inj (((hs.member u _).mp hy).2.symm.trans hxt))
  have hchain : ∀ u, k'.Chained (popped st t u) := by
    intro u
    have hold : k.Chained (popped st t u) → k'.Chained (popped st t u) := by
      apply chained_congr
      intro y hy
      have hheld := (h.held ((hmem u y).mp hy).2).2
      exact ⟨hheld.parent, hheld.terminalOwner⟩
    apply hold
    by_cases hu : u = t
    · rw [hu, hself]
      have hc := hs.chain t
      rw [hst] at hc
      cases rest with
      | nil => trivial
      | cons p qs => exact hc.2
    · rw [hother u hu]
      exact hs.chain u
  have hheads : ∀ u, u ≠ t → ∀ f, (st u).head? = some f → ∃ v, (popped st t v).head? = some f :=
    fun u hu f hf => ⟨u, by rw [hother u hu]; exact hf⟩
  -- what becomes of the terminal depends on whether the task owns it
  have hterminal : (∀ u, k'.terminalFgTask u = (popped st t u).head?) ∧
      (∀ f, k'.focusTask = some f → ∃ u, (popped st t u).head? = some f) ∧
      ∀ u, (k'.term (some u)).valid = true ↔ popped st t u ≠ [] := by
    rcases hs.top_cases hx with ⟨hone, -, ho⟩ | ⟨p, qs, htwo, hpar, ho⟩
    · obtain rfl : rest = [] := by rw [hone] at hst; simpa using hst.symm
      obtain ⟨t', ht', hfg, hfocus, hterm, -, -⟩ := h.owned ho
      obtain rfl : t = t' := Option.some.inj (hxt.symm.trans ht')
      refine ⟨fun u => ?_, fun f hf => ?_, fun u => ?_⟩
      · rw [hfg]
        by_cases hu : u = t
        · rw [hu, hself, Function.update_self]
          rfl
        · rw [hother u hu, Function.update_of_ne hu, hs.fg]
      · obtain ⟨y, hy, hfy⟩ := hfocus
        rw [hfy] at hf
        by_cases hyt : (k.task y).terminal = some t
        · rw [if_pos hyt] at hf
          obtain ⟨u, hu, hfu⟩ := Option.bind_eq_some_iff.mp hf
          rw [hs.fg] at hfu
          exact hheads u (getAnotherTermId_some hu).1 f hfu
        · rw [if_neg hyt] at hf
          cases hf
          obtain ⟨u, hu⟩ := hs.focus _ hy
          refine hheads u ?_ _ hu
          rintro rfl
          exact hyt (hs.head hu).2
      · rw [hterm]
        by_cases hu : u = t
        · rw [hu, hself, Function.update_self]
          simp
        · rw [hother u hu, Function.update_of_ne (by simpa using hu), hs.term]
    · obtain rfl : rest = p :: qs := by rw [htwo] at hst; simpa using hst.symm
      have hpt : (k.task p).terminal = some t :=
        ((hs.member t p).mp (by rw [htwo]; simp)).2
      obtain ⟨hterm, -, -, ⟨hnone, -⟩ | ⟨p', t', y, hp', ht', hfg, hy, hfocus⟩⟩ := h.shared ho
      · rw [hpar] at hnone
        cases hnone
      obtain rfl : p = p' := Option.some.inj (hpar.symm.trans hp')
      obtain rfl : t = t' := Option.some.inj (hpt.symm.trans ht')
      refine ⟨fun u => ?_, fun f hf => ?_, fun u => ?_⟩
      · rw [hfg]
        by_cases hu : u = t
        · rw [hu, hself, Function.update_self]
          rfl
        · rw [hother u hu, Function.update_of_ne hu, hs.fg]
      · rw [hfocus] at hf
        by_cases hyt : (k.task y).terminal = some t
        · rw [if_pos hyt] at hf
          exact ⟨t, by rw [hself]; exact hf⟩
        · rw [if_neg hyt] at hf
          cases hf
          obtain ⟨u, hu⟩ := hs.focus y hy
          refine hheads u ?_ _ hu
          rintro rfl
          exact hyt (hs.head hu).2
      · rw [hterm]
        by_cases hu : u = t
        · rw [hu, hself]
          simp [(hs.term t).mpr (by rw [htwo]; simp)]
        · rw [hother u hu, hs.term]
  have hlive : ∀ y, (k'.task y).valid = true → (k.task y).valid = true ∧
      (k.task y).SameHoldings (k'.task y) := by
    intro y hy
    obtain ⟨hyv, hne⟩ := (h.valid_iff y).mp hy
    exact ⟨hyv, (h.held hne).2⟩
  have hxkind : (k.task x).flags.kernelTask = false := by
    cases hkt : (k.task x).flags.kernelTask with
    | false => rfl
    | true =>
      have := (hs.kernel x hxv).mp hkt
      rw [hxt] at this
      cases this
  constructor
  case member =>
    intro u y
    rw [hmem, hs.member, h.valid_iff]
    by_cases hy : y = x
    · simp [hy]
    · rw [(h.held hy).2.terminal]
      simp [hy]
  case nodup =>
    intro u
    by_cases hu : u = t
    · rw [hu, hself]
      exact (List.nodup_cons.mp hnd).2
    · rw [hother u hu]
      exact hs.nodup u
  case chain => exact hchain
  case fg => exact hterminal.1
  case focus => exact hterminal.2.1
  case term => exact hterminal.2.2
  case kernel =>
    intro y hy
    obtain ⟨hyv, hheld⟩ := hlive y hy
    rw [hheld.kernelTask, hheld.terminal]
    exact hs.kernel y hyv
  case orphan =>
    intro y hy hkt
    obtain ⟨hyv, hheld⟩ := hlive y hy
    rw [hheld.parent, hs.orphan y hyv (hheld.kernelTask ▸ hkt)]
  case idle =>
    obtain ⟨z, hz, hi⟩ := hs.idle
    have hzx : z ≠ x := by
      rintro rfl
      rw [hs.idleKernel z hz hi] at hxkind
      cases hxkind
    exact ⟨z, (h.held hzx).1.trans hz, (h.held hzx).2.idleTask.trans hi⟩
  case idleKernel =>
    intro y hy hi
    obtain ⟨hyv, hheld⟩ := hlive y hy
    rw [hheld.kernelTask, hs.idleKernel y hyv (hheld.idleTask ▸ hi)]

end Kernel

end AuroraOS
