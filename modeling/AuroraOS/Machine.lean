/-
# Runs of a partial step function

A library for machines `step : σ → ℓ → Except φ σ` that take a label, and either
reach a new state or stop with a fault.  `run` folds the step over a list of
labels, `Meets C` says that every step a run takes satisfies the condition `C` on
the state it starts from and its label, and the rules below carry an invariant
from one step to a whole run.
-/
import Mathlib

namespace Machine

variable {σ ℓ φ : Type*}

/-! ## Except -/

universe u

/-- A sequence of two steps succeeds when both do. -/
theorem bind_eq_ok {α β : Type u} {x : Except φ α} {f : α → Except φ β} {b : β} :
    (x >>= f) = .ok b ↔ ∃ a, x = .ok a ∧ f a = .ok b := by
  constructor
  · intro h
    cases x with
    | error e => cases h
    | ok a => exact ⟨a, rfl, h⟩
  · rintro ⟨a, rfl, h⟩
    exact h

@[simp] theorem ok_bind {α β : Type u} (a : α) (f : α → Except φ β) :
    (Except.ok a >>= f) = f a := rfl

@[simp] theorem error_bind {α β : Type u} (e : φ) (f : α → Except φ β) :
    (Except.error e >>= f) = .error e := rfl

/-- A sequence of two steps stops with a fault only if one of them does. -/
theorem bind_ne_error {α β : Type u} {x : Except φ α} {f : α → Except φ β} {e : φ}
    (hx : x ≠ .error e) (hf : ∀ a, x = .ok a → f a ≠ .error e) : (x >>= f) ≠ .error e := by
  cases x with
  | error d => exact fun h => hx (congrArg _ (Except.error.inj h))
  | ok a => exact hf a rfl

/-! ## Runs -/

/-- The state after a list of labels. -/
def run (step : σ → ℓ → Except φ σ) : σ → List ℓ → Except φ σ
  | s, [] => .ok s
  | s, a :: as =>
    match step s a with
    | .ok s' => run step s' as
    | .error e => .error e

/-- Every step the run takes meets the condition. -/
def Meets (step : σ → ℓ → Except φ σ) (C : σ → ℓ → Prop) : σ → List ℓ → Prop
  | _, [] => True
  | s, a :: as => C s a ∧ ∀ s', step s a = .ok s' → Meets step C s' as

instance decidableMeets (step : σ → ℓ → Except φ σ) (C : σ → ℓ → Prop)
    [∀ s a, Decidable (C s a)] : ∀ s as, Decidable (Meets step C s as)
  | _, [] => isTrue trivial
  | s, a :: as =>
    match h : step s a with
    | .ok s' =>
      have := decidableMeets step C s' as
      decidable_of_iff (C s a ∧ Meets step C s' as)
        (and_congr_right' ⟨fun hm t ht => Except.ok.inj (h.symm.trans ht) ▸ hm, fun hm => hm s' h⟩)
    | .error _ =>
      decidable_of_iff (C s a) (by simp [Meets, h])

/-- How many steps of the run are of this kind. -/
def countSteps (step : σ → ℓ → Except φ σ) (P : σ → ℓ → Bool) : σ → List ℓ → ℕ
  | _, [] => 0
  | s, a :: as =>
    (if P s a then 1 else 0) +
      match step s a with
      | .ok s' => countSteps step P s' as
      | .error _ => 0

variable {step : σ → ℓ → Except φ σ} {C D : σ → ℓ → Prop} {I : σ → Prop}

theorem countSteps_cons {P : σ → ℓ → Bool} {s s' : σ} {a : ℓ} (as : List ℓ)
    (h : step s a = .ok s') :
    countSteps step P s (a :: as) = (if P s a then 1 else 0) + countSteps step P s' as := by
  rw [countSteps, h]

/-- What can be read off the result of a computation that succeeds. -/
theorem toOption_map_eq_some {α β : Type*} {r : Except φ α} {f : α → β} {b : β} :
    r.toOption.map f = some b ↔ ∃ a, r = .ok a ∧ f a = b := by
  cases r <;> simp [Except.toOption]

theorem toOption_bind_eq_some {α β : Type*} {r : Except φ α} {f : α → Option β} {b : β} :
    r.toOption.bind f = some b ↔ ∃ a, r = .ok a ∧ f a = some b := by
  cases r <;> simp [Except.toOption]

theorem run_cons_ok {s t : σ} {a : ℓ} {as : List ℓ} :
    run step s (a :: as) = .ok t ↔ ∃ s', step s a = .ok s' ∧ run step s' as = .ok t := by
  rw [run]
  cases step s a <;> simp

theorem run_append {as bs : List ℓ} : ∀ {s t : σ},
    run step s (as ++ bs) = .ok t ↔ ∃ u, run step s as = .ok u ∧ run step u bs = .ok t := by
  induction as with
  | nil => simp [run]
  | cons a as ih =>
    intro s t
    rw [List.cons_append, run_cons_ok]
    simp only [run_cons_ok, ih]
    constructor
    · rintro ⟨s', hs, u, hu, ht⟩
      exact ⟨u, ⟨s', hs, hu⟩, ht⟩
    · rintro ⟨u, ⟨s', hs, hu⟩, ht⟩
      exact ⟨s', hs, u, hu, ht⟩

theorem Meets.mono (h : ∀ s a, C s a → D s a) {as : List ℓ} :
    ∀ {s : σ}, Meets step C s as → Meets step D s as := by
  induction as with
  | nil => intro s _; trivial
  | cons a as ih =>
    intro s hm
    exact ⟨h s a hm.1, fun s' hs => ih (hm.2 s' hs)⟩

theorem meets_of_forall {D : ℓ → Prop} {as : List ℓ} :
    ∀ {s : σ}, (∀ a ∈ as, D a) → Meets step (fun _ a => D a) s as := by
  induction as with
  | nil => exact fun _ => trivial
  | cons a as ih =>
    intro s h
    exact ⟨h a List.mem_cons_self, fun s' _ => ih fun b hb => h b (List.mem_cons_of_mem a hb)⟩

theorem meets_append {as bs : List ℓ} : ∀ {s : σ},
    Meets step C s (as ++ bs) →
      Meets step C s as ∧ ∀ u, run step s as = .ok u → Meets step C u bs := by
  induction as with
  | nil =>
    intro s h
    refine ⟨trivial, ?_⟩
    rintro u ⟨⟩
    exact h
  | cons a as ih =>
    intro s h
    refine ⟨⟨h.1, fun s' hs => (ih (h.2 s' hs)).1⟩, ?_⟩
    intro u hu
    obtain ⟨s', hs, hu⟩ := run_cons_ok.mp hu
    exact (ih (h.2 s' hs)).2 u hu

/-- **The invariant rule.**  What every step that meets the condition preserves
holds at the end of every run whose steps all meet it. -/
theorem run_invariant (hstep : ∀ s a t, I s → C s a → step s a = .ok t → I t) {as : List ℓ} :
    ∀ {s t : σ}, I s → Meets step C s as → run step s as = .ok t → I t := by
  induction as with
  | nil =>
    rintro s t hs _ ⟨⟩
    exact hs
  | cons a as ih =>
    intro s t hs hm hr
    obtain ⟨s', hs', hr⟩ := run_cons_ok.mp hr
    exact ih (hstep s a s' hs hm.1 hs') (hm.2 s' hs') hr

/-- A fault that no step from the invariant meets is met by no run. -/
theorem run_no_error {e : φ} (hstep : ∀ s a t, I s → C s a → step s a = .ok t → I t)
    (hno : ∀ s a, I s → C s a → step s a ≠ .error e) {as : List ℓ} :
    ∀ {s : σ}, I s → Meets step C s as → run step s as ≠ .error e := by
  induction as with
  | nil =>
    intro s _ _ hr
    cases hr
  | cons a as ih =>
    intro s hs hm hr
    rw [run] at hr
    cases ha : step s a with
    | error d =>
      rw [ha] at hr
      cases hr
      exact hno s a hs hm.1 ha
    | ok s' =>
      rw [ha] at hr
      exact ih (hstep s a s' hs hm.1 ha) (hm.2 s' ha) hr

/-- The invariant rule for a step that meets no fault at all. -/
theorem run_total (hstep : ∀ s a, I s → C s a → ∃ t, step s a = .ok t ∧ I t) {as : List ℓ} :
    ∀ {s : σ}, I s → Meets step C s as → ∃ t, run step s as = .ok t ∧ I t := by
  induction as with
  | nil => exact fun hs _ => ⟨_, rfl, hs⟩
  | cons a as ih =>
    intro s hs hm
    obtain ⟨s', ha, hs'⟩ := hstep s a hs hm.1
    obtain ⟨t, ht, hi⟩ := ih hs' (hm.2 s' ha)
    exact ⟨t, run_cons_ok.mpr ⟨s', ha, ht⟩, hi⟩

/-- The invariant rule when every step preserves the invariant. -/
theorem run_invariant' (hstep : ∀ s a t, I s → step s a = .ok t → I t) {as : List ℓ}
    {s t : σ} (hs : I s) (hr : run step s as = .ok t) : I t := by
  have hm : ∀ (bs : List ℓ) (u : σ), Meets step (fun _ _ => True) u bs := by
    intro bs
    induction bs with
    | nil => intro u; trivial
    | cons b bs ih => intro u; exact ⟨trivial, fun s' _ => ih s'⟩
  exact run_invariant (C := fun _ _ => True)
    (fun s a t hi _ ht => hstep s a t hi ht) hs (hm as s) hr

end Machine
