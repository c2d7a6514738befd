/-
# Failed calls of `system_execute`

`system_execute` has many ways out, and each undoes by hand what has been done before
it.  Two of them do not: a request that would inherit a terminal without waiting keeps
its slot, and a window that does not fit gives everything back but goes on.
-/
import AuroraOS.Execute
import AuroraOS.System

namespace AuroraOS

open Ring Machine

namespace Kernel

variable {k k' : Kernel} {a : ExecuteArgs} {img : FsImage} {noise : Noise}

/-! ## The statement -/

/-- What a call that fails has to leave as it was. -/
structure Unchanged (k k' : Kernel) : Prop where
  slots : ∀ x, (k'.task x).valid = (k.task x).valid
  tasks : ∀ x, (k.task x).valid = true → k'.task x = k.task x
  taskCount : k'.taskCount = k.taskCount
  pageIdRunning : k'.paging.pageIdRunning = k.paging.pageIdRunning
  sentinels : ∀ s, k'.links.next (.head s) = k.links.next (.head s) ∧
    k'.links.prev (.head s) = k.links.prev (.head s)
  nodes : ∀ x, (k.task x).valid = true → k'.links.next (.item x) = k.links.next (.item x) ∧
    k'.links.prev (.item x) = k.links.prev (.item x)
  terminals : ∀ t, (k'.term t).valid = (k.term t).valid
  terminalOpened : k'.vidmem.terminalOpened = k.vidmem.terminalOpened
  windowStack : k'.gui.windowStack = k.gui.windowStack
  terminalFgTask : k'.terminalFgTask = k.terminalFgTask
  focusTask : k'.focusTask = k.focusTask
  pageDirectory : k'.paging.imgEntry = k.paging.imgEntry ∧
    k'.vidmem.vramEntry = k.vidmem.vramEntry ∧ k'.vidmem.vidmapEntry = k.vidmem.vidmapEntry

/-- A call that returns -1 changes nothing, and a call that goes on runs a valid task. -/
def AtomicExecute (k : Kernel) (img : FsImage) (noise : Noise) (a : ExecuteArgs) : Prop :=
  match k.systemExecute img noise a with
  | .error k' => Unchanged k k'
  | .ok k' => (k'.task k'.running).valid = true

theorem Untouched.unchanged (h : Untouched k k') : Unchanged k k' where
  slots := by
    intro x
    cases hx : (k.task x).valid with
    | true => rw [h.task x hx, hx]
    | false => exact h.free x hx
  tasks := h.task
  taskCount := h.taskCount
  pageIdRunning := by rw [h.paging]
  sentinels := fun s => h.links (.head s) (fun y hy => by cases hy)
  nodes := by
    intro x hx
    apply h.links
    rintro y ⟨⟩
    exact hx
  terminals := by
    intro t
    cases ht : (k.term t).valid with
    | true => rw [h.term t ht, ht]
    | false => exact (h.freeTerm t ht).1
  terminalOpened := by rw [h.vidmem]
  windowStack := by rw [h.gui]
  terminalFgTask := h.terminalFgTask
  focusTask := h.focusTask
  pageDirectory := by rw [h.paging, h.vidmem]; exact ⟨rfl, rfl, rfl⟩

/-! ## When it holds -/

/-- A slot that is not given back stays valid. -/
theorem not_unchanged_allocated {x : TaskId} {f : Task → Task} (hx : (k.task x).valid = false)
    (hf : ∀ t, (f t).valid = t.valid) : ¬ Unchanged k ((k.allocated x).modifyTask x f) := by
  intro h
  have hslot := h.slots x
  simp [allocated, hf, hx] at hslot

/-- The kernel at start fits together. -/
theorem start_wellFormed : start.WellFormed where
  count := by decide +kernel
  windows := ⟨[], by decide +kernel, List.nodup_nil⟩
  closed := by decide +kernel

/-- The arguments of the test of error paths: the caller has a terminal and does not wait. -/
def inheritArgs : ExecuteArgs where
  command := catCommand
  wait := 0
  newTerminal := false
  kernelTask := false

end Kernel

end AuroraOS
