/-
# Pictures made of rectangle copies

A library for drawing by opaque copies of rectangles inside one picture.  The last copy that
covers a point decides what is there; when no copy reads from the region that is drawn to,
the point shows what this copy reads in the picture as it was at the start.
-/
import Mathlib

namespace Blit

/-- A picture with colours in `α`. -/
abbrev Picture (α : Type*) := ℤ → ℤ → α

/-- Copy the rectangle with the corner `(srcX, srcY)` to the corner `(dstX, dstY)`. -/
@[ext] structure Copy where
  srcX : ℤ
  srcY : ℤ
  dstX : ℤ
  dstY : ℤ
  width : ℤ
  height : ℤ
  deriving DecidableEq

variable {α : Type*} {x y : ℤ} {m : Picture α} {c : Copy} {as bs cs : List Copy}

namespace Copy

/-- The point is in the rectangle that is drawn. -/
def Covers (c : Copy) (x y : ℤ) : Prop :=
  (c.dstX ≤ x ∧ x < c.dstX + c.width) ∧ c.dstY ≤ y ∧ y < c.dstY + c.height

instance (c : Copy) (x y : ℤ) : Decidable (c.Covers x y) :=
  inferInstanceAs (Decidable (_ ∧ _))

/-- Where the copy reads what it draws at a point. -/
def source (c : Copy) (x y : ℤ) : ℤ × ℤ := (c.srcX + (x - c.dstX), c.srcY + (y - c.dstY))

/-- The picture behind the copy. -/
def apply (c : Copy) (m : Picture α) : Picture α := fun x y =>
  if c.Covers x y then m (c.source x y).1 (c.source x y).2 else m x y

end Copy

/-- A list of copies, one after the other. -/
def exec (cs : List Copy) (m : Picture α) : Picture α := cs.foldl (fun m c => c.apply m) m

theorem exec_append (as bs : List Copy) (m : Picture α) :
    exec (as ++ bs) m = exec bs (exec as m) := List.foldl_append

/-! ## The last copy -/

/-- The last copy that covers a point. -/
def last (cs : List Copy) (x y : ℤ) : Option Copy := cs.reverse.find? fun c => c.Covers x y

theorem last_append : last (as ++ bs) x y = (last bs x y).or (last as x y) := by
  rw [last, List.reverse_append, List.find?_append, last, last]

theorem last_eq_none : last cs x y = none ↔ ∀ c ∈ cs, ¬c.Covers x y := by
  rw [last, List.find?_eq_none]
  simp

theorem last_mem (h : last cs x y = some c) : c ∈ cs ∧ c.Covers x y := by
  constructor
  · exact List.mem_reverse.mp (List.mem_of_find?_eq_some h)
  · simpa using List.find?_some h

/-- When all copies that cover a point are the same one, it is the last one. -/
theorem last_eq_some (hc : c ∈ cs) (hcov : c.Covers x y)
    (hsame : ∀ d ∈ cs, d.Covers x y → d = c) : last cs x y = some c := by
  cases hlast : last cs x y with
  | none => exact absurd hcov (last_eq_none.mp hlast c hc)
  | some d =>
    obtain ⟨hd, hdcov⟩ := last_mem hlast
    rw [hsame d hd hdcov]

theorem last_append_left (h : ∀ c ∈ bs, ¬c.Covers x y) : last (as ++ bs) x y = last as x y := by
  rw [last_append, last_eq_none.mpr h, Option.none_or]

theorem last_append_right (h : c ∈ bs) (hcov : c.Covers x y) :
    last (as ++ bs) x y = last bs x y := by
  rw [last_append]
  cases hlast : last bs x y with
  | none => exact absurd hcov (last_eq_none.mp hlast c h)
  | some d => rfl

/-- A picture in layers: the one with the highest number is drawn first. -/
def layers (f : ℕ → List Copy) : ℕ → List Copy
  | 0 => []
  | n + 1 => f n ++ layers f n

theorem mem_layers {f : ℕ → List Copy} {n : ℕ} : c ∈ layers f n ↔ ∃ i < n, c ∈ f i := by
  induction n with
  | zero => simp [layers]
  | succ n ih =>
    rw [layers, List.mem_append, ih]
    constructor
    · rintro (h | ⟨i, hi, h⟩)
      · exact ⟨n, Nat.lt_succ_self n, h⟩
      · exact ⟨i, Nat.lt_succ_of_lt hi, h⟩
    · rintro ⟨i, hi, h⟩
      rcases Nat.lt_succ_iff_lt_or_eq.mp hi with hlt | rfl
      · exact Or.inr ⟨i, hlt, h⟩
      · exact Or.inl h

/-- **The topmost layer that covers a point** decides. -/
theorem last_layers {f : ℕ → List Copy} {n i : ℕ} (hi : i < n) (hc : c ∈ f i)
    (hcov : c.Covers x y) (habove : ∀ j < i, ∀ d ∈ f j, ¬d.Covers x y) :
    last (layers f n) x y = last (f i) x y := by
  induction n with
  | zero => omega
  | succ n ih =>
    rw [layers]
    rcases Nat.lt_succ_iff_lt_or_eq.mp hi with hlt | rfl
    · rw [last_append_right (mem_layers.mpr ⟨i, hlt, hc⟩) hcov, ih hlt]
    · apply last_append_left
      intro d hd
      obtain ⟨j, hj, hd⟩ := mem_layers.mp hd
      exact habove j hj d hd

/-! ## Copies from outside of what is drawn -/

/-- All copies draw to the region, and read outside of it. -/
def Apart (R : ℤ → ℤ → Prop) (cs : List Copy) : Prop :=
  ∀ c ∈ cs, ∀ x y, c.Covers x y → R x y ∧ ¬R (c.source x y).1 (c.source x y).2

theorem exec_of_not {R : ℤ → ℤ → Prop} (h : Apart R cs) (hR : ¬R x y) : exec cs m x y = m x y := by
  induction cs generalizing m with
  | nil => rfl
  | cons c cs ih =>
    show exec cs (c.apply m) x y = m x y
    rw [ih (fun d hd => h d (List.mem_cons_of_mem _ hd))]
    exact if_neg fun hcov => hR (h c List.mem_cons_self x y hcov).1

/-- **What is drawn**: every point shows what the last copy that covers it reads. -/
theorem exec_eq {R : ℤ → ℤ → Prop} (h : Apart R cs) (m : Picture α) (x y : ℤ) :
    exec cs m x y =
      (last cs x y).elim (m x y) fun c => m (c.source x y).1 (c.source x y).2 := by
  induction cs using List.reverseRecOn with
  | nil => rfl
  | append_singleton cs c ih =>
    have hcs : Apart R cs := fun d hd => h d (List.mem_append_left _ hd)
    rw [exec_append, last_append]
    show c.apply (exec cs m) x y = _
    by_cases hcov : c.Covers x y
    · have hsrc := (h c (List.mem_append_right _ List.mem_cons_self) x y hcov).2
      have hlast : last [c] x y = some c :=
        last_eq_some List.mem_cons_self hcov fun d hd _ => List.mem_singleton.mp hd
      rw [Copy.apply, if_pos hcov, exec_of_not hcs hsrc, hlast]
      rfl
    · have hlast : last [c] x y = none := last_eq_none.mpr fun d hd => by
        rwa [List.mem_singleton.mp hd]
      rw [Copy.apply, if_neg hcov, ih hcs, hlast, Option.none_or]

/-- Two lists draw the same picture when their last copies read the same point. -/
theorem exec_congr {R : ℤ → ℤ → Prop} (ha : Apart R as) (hb : Apart R bs)
    (h : ∀ x y, (last as x y).map (·.source x y) = (last bs x y).map (·.source x y))
    (m : Picture α) : exec as m = exec bs m := by
  funext x y
  rw [exec_eq ha, exec_eq hb]
  have hxy := h x y
  cases hla : last as x y with
  | none =>
    cases hlb : last bs x y with
    | none => rfl
    | some d =>
      rw [hla, hlb] at hxy
      cases hxy
  | some c =>
    cases hlb : last bs x y with
    | none =>
      rw [hla, hlb] at hxy
      cases hxy
    | some d =>
      rw [hla, hlb] at hxy
      have hsrc : c.source x y = d.source x y := Option.some.inj hxy
      show m (c.source x y).1 (c.source x y).2 = m (d.source x y).1 (d.source x y).2
      rw [hsrc]

end Blit
