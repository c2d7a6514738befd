/-
# Pictures in memory

A library for pictures with two bytes for every pixel, line after line, in a memory of bytes:
plotting a pixel, and the loops that plot the pixels of a rectangle.
-/
import AuroraOS.Blit
import AuroraOS.Memory

namespace Raster

open Blit Memory

/-! ## Words of two bytes -/

/-- The two bytes at an address. -/
def load16 (m : Mem) (a : BitVec 32) : BitVec 16 := (m (a + 1)).toBitVec ++ (m a).toBitVec

/-- Two bytes stored, lower byte first. -/
def store16 (m : Mem) (a : BitVec 32) (w : BitVec 16) : Mem :=
  Function.update (Function.update m a ⟨w.setWidth 8⟩) (a + 1) ⟨(w >>> 8).setWidth 8⟩

variable {m m' : Mem} {a b : BitVec 32} {w : BitVec 16}

theorem store16_of_le (h : 2 ≤ (b - a).toNat) : store16 m a w b = m b := by
  have hfirst : b ≠ a := by
    rintro rfl
    simp at h
  have hsecond : b ≠ a + 1 := by
    rintro rfl
    rw [add_sub_cancel_left] at h
    exact absurd h (by decide)
  rw [store16, Function.update_of_ne hsecond, Function.update_of_ne hfirst]

theorem load16_store16 (m : Mem) (a : BitVec 32) (w : BitVec 16) : load16 (store16 m a w) a = w := by
  have hne : a ≠ a + 1 := by bv_omega
  rw [load16, store16, Function.update_self, Function.update_of_ne hne, Function.update_self]
  apply BitVec.eq_of_toNat_eq
  have hw := w.isLt
  rw [BitVec.toNat_append, BitVec.toNat_setWidth, BitVec.toNat_setWidth, BitVec.toNat_ushiftRight,
    Nat.shiftRight_eq_div_pow, ← Nat.shiftLeft_add_eq_or_of_lt (Nat.mod_lt _ (by decide)),
    Nat.shiftLeft_eq]
  omega

/-- A word that does not overlap the one that is stored. -/
theorem load16_store16_apart (h : 2 ≤ (b - a).toNat) (h' : 2 ≤ (a - b).toNat) :
    load16 (store16 m a w) b = load16 m b := by
  rw [load16, load16, store16_of_le h, store16_of_le (by bv_omega)]

theorem load16_congr (h : m a = m' a) (h' : m (a + 1) = m' (a + 1)) : load16 m a = load16 m' a := by
  rw [load16, load16, h, h']

/-! ## Pixels -/

/-- The address of a pixel, `pitch` bytes in a line. -/
def address (base : BitVec 32) (pitch x y : ℤ) : BitVec 32 :=
  base + BitVec.ofInt 32 (y * pitch + x * 2)

/-- The picture at an address. -/
def picture (m : Mem) (base : BitVec 32) (pitch : ℤ) : Picture (BitVec 16) := fun x y =>
  load16 m (address base pitch x y)

/-- The pixels of a picture. -/
def Inside (pitch height x y : ℤ) : Prop := (0 ≤ x ∧ x * 2 + 2 ≤ pitch) ∧ 0 ≤ y ∧ y < height

section Pixels

variable {base : BitVec 32} {pitch height x y x' y' : ℤ}

/-- A pixel is inside of the bytes of the picture. -/
theorem Inside.offset (h : Inside pitch height x y) :
    0 ≤ y * pitch + x * 2 ∧ y * pitch + x * 2 + 2 ≤ pitch * height := by
  obtain ⟨⟨hx, hpitch⟩, hy, hlt⟩ := h
  have hrow : 0 ≤ y * pitch := Int.mul_nonneg hy (by omega)
  have hnext : (y + 1) * pitch ≤ height * pitch := Int.mul_le_mul_of_nonneg_right hlt (by omega)
  rw [Int.add_mul, Int.one_mul, Int.mul_comm height] at hnext
  omega

/-- Different pixels do not overlap. -/
theorem Inside.apart (h : Inside pitch height x y) (h' : Inside pitch height x' y')
    (hne : ¬(x' = x ∧ y' = y)) : y * pitch + x * 2 + 2 ≤ y' * pitch + x' * 2 ∨
      y' * pitch + x' * 2 + 2 ≤ y * pitch + x * 2 := by
  obtain ⟨⟨hx, hpitch⟩, hy, hlt⟩ := h
  obtain ⟨⟨hx', hpitch'⟩, hy', hlt'⟩ := h'
  have hrow : ∀ {u v : ℤ}, u < v → u * pitch + pitch ≤ v * pitch := by
    intro u v huv
    have := Int.mul_le_mul_of_nonneg_right (show u + 1 ≤ v from huv) (by omega : 0 ≤ pitch)
    rwa [Int.add_mul, Int.one_mul] at this
  rcases lt_trichotomy y y' with hlt | rfl | hlt
  · have := hrow hlt
    omega
  · omega
  · have := hrow hlt
    omega

/-- The distance of a pixel from the start of the picture. -/
theorem Inside.toNat_sub (h : Inside pitch height x y) (hsize : pitch * height ≤ 2 ^ 32) :
    (address base pitch x y - base).toNat = (y * pitch + x * 2).toNat := by
  have hoffset := h.offset
  rw [address, add_sub_cancel_left, BitVec.toNat_ofInt, Int.emod_eq_of_lt hoffset.1]
  push_cast
  omega

/-- **Storing a pixel changes that pixel only.** -/
theorem picture_store16 (hsize : pitch * height ≤ 2 ^ 32) (h : Inside pitch height x y)
    (h' : Inside pitch height x' y') :
    picture (store16 m (address base pitch x y) w) base pitch x' y' =
      if x' = x ∧ y' = y then w else picture m base pitch x' y' := by
  split_ifs with heq
  · obtain ⟨rfl, rfl⟩ := heq
    exact load16_store16 _ _ _
  · have hoffset := h.offset
    have hoffset' := h'.offset
    have hdist : (address base pitch x y - base).toNat = _ := h.toNat_sub hsize
    have hdist' : (address base pitch x' y' - base).toNat = _ := h'.toNat_sub hsize
    have hapart := h.apart h' heq
    obtain ⟨p, hp⟩ : ∃ p, p = address base pitch x y := ⟨_, rfl⟩
    obtain ⟨q, hq⟩ : ∃ q, q = address base pitch x' y' := ⟨_, rfl⟩
    rw [picture, picture, ← hp, ← hq]
    rw [← hp] at hdist
    rw [← hq] at hdist'
    apply load16_store16_apart <;> bv_omega

end Pixels

/-! ## Plotting -/

section Plot

variable {α S : Type*} {P : Picture α} {x0 y0 : ℤ} {w h : ℕ} {f : ℕ → ℕ → α → α}

/-- One pixel changed. -/
def plot (x y : ℤ) (f : α → α) (P : Picture α) : Picture α := fun x' y' =>
  if x' = x ∧ y' = y then f (P x' y') else P x' y'

/-- The pixels of a rectangle changed, by functions of their column and row. -/
def region (x0 y0 : ℤ) (w h : ℕ) (f : ℕ → ℕ → α → α) (P : Picture α) : Picture α := fun x y =>
  if (x0 ≤ x ∧ x < x0 + w) ∧ y0 ≤ y ∧ y < y0 + h then
    f (x - x0).toNat (y - y0).toNat (P x y)
  else P x y

/-- A loop that counts up, with `n` turns left from `i` on. -/
def forLoop (step : ℕ → S → S) : ℕ → ℕ → S → S
  | 0, _, s => s
  | n + 1, i, s => forLoop step n (i + 1) (step i s)

theorem forLoop_induction {n : ℕ} {step : ℕ → S → S} {R : ℕ → S → Prop}
    (hstep : ∀ i < n, ∀ s, R i s → R (i + 1) (step i s)) :
    ∀ {k i : ℕ} {s : S}, i + k = n → R i s → R n (forLoop step k i s) := by
  intro k
  induction k with
  | zero => rintro i s rfl hR; exact hR
  | succ k ih =>
    intro i s hi hR
    exact ih (by omega) (hstep i (by omega) s hR)

/-- The first `j` rows of a rectangle, and `i` pixels of the next one. -/
def scanned (x0 y0 : ℤ) (w : ℕ) (f : ℕ → ℕ → α → α) (j i : ℕ) (P : Picture α) : Picture α :=
  region x0 (y0 + j) i 1 (fun a _ => f a j) (region x0 y0 w j f P)

theorem scanned_zero (j : ℕ) : scanned x0 y0 w f j 0 P = region x0 y0 w j f P := by
  funext x y
  rw [scanned, region, if_neg (by omega)]

theorem scanned_full (j : ℕ) : scanned x0 y0 w f j w P = region x0 y0 w (j + 1) f P := by
  funext x y
  rw [scanned, region, region, region]
  by_cases hrow : (x0 ≤ x ∧ x < x0 + w) ∧ y = y0 + j
  · obtain ⟨hx, rfl⟩ := hrow
    have hj : (y0 + (j : ℤ) - y0).toNat = j := by omega
    rw [if_pos (by omega), if_neg (by omega), if_pos (by omega), hj]
  · rw [if_neg (by omega)]
    by_cases habove : (x0 ≤ x ∧ x < x0 + w) ∧ y0 ≤ y ∧ y < y0 + j
    · rw [if_pos habove, if_pos (by omega)]
    · rw [if_neg habove, if_neg (by omega)]

theorem plot_scanned (i j : ℕ) :
    plot (x0 + i) (y0 + j) (f i j) (scanned x0 y0 w f j i P) = scanned x0 y0 w f j (i + 1) P := by
  rw [scanned, scanned]
  generalize region x0 y0 w j f P = Q
  funext x y
  rw [plot, region, region]
  by_cases hhere : x = x0 + i ∧ y = y0 + j
  · obtain ⟨rfl, rfl⟩ := hhere
    have hi' : (x0 + (i : ℤ) - x0).toNat = i := by omega
    rw [if_pos ⟨rfl, rfl⟩, if_neg (by omega), if_pos (by omega), hi']
  · rw [if_neg hhere]
    by_cases hbefore : (x0 ≤ x ∧ x < x0 + i) ∧ y0 + j ≤ y ∧ y < y0 + j + (1 : ℕ)
    · rw [if_pos hbefore, if_pos (by omega)]
    · rw [if_neg hbefore, if_neg (by omega)]

/-- **Two loops that plot a rectangle row by row.** `R` says which picture a state shows. -/
theorem forLoop_rows {R : S → Picture α → Prop} {step : ℕ → ℕ → S → S}
    (hstep : ∀ j < h, ∀ i < w, ∀ s P, R s P → R (step j i s) (plot (x0 + i) (y0 + j) (f i j) P))
    {s : S} (hR : R s P) :
    R (forLoop (fun j => forLoop (step j) w 0) h 0 s) (region x0 y0 w h f P) := by
  have hempty : region x0 y0 w 0 f P = P := by
    funext x y
    exact if_neg (by omega)
  refine forLoop_induction (R := fun j s => R s (region x0 y0 w j f P)) ?_ (Nat.zero_add h) ?_
  · intro j hj s hs
    rw [← scanned_full]
    refine forLoop_induction (R := fun i s => R s (scanned x0 y0 w f j i P)) ?_ (Nat.zero_add w) ?_
    · intro i hi s hs
      rw [← plot_scanned]
      exact hstep j hj i hi s _ hs
    · rwa [scanned_zero]
  · rwa [hempty]

/-- **Two loops that plot a rectangle column by column.** -/
theorem forLoop_columns {R : S → Picture α → Prop} {step : ℕ → ℕ → S → S}
    (hstep : ∀ i < w, ∀ j < h, ∀ s P, R s P → R (step i j s) (plot (x0 + i) (y0 + j) (f i j) P))
    {s : S} (hR : R s P) :
    R (forLoop (fun i => forLoop (step i) h 0) w 0 s) (region x0 y0 w h f P) := by
  -- the rows of the picture with its axes exchanged
  have hrows := @forLoop_rows α S (fun x y => P y x) y0 x0 h w (fun j i => f i j)
    (fun s Q => R s fun x y => Q y x) step
    (fun i hi j hj s Q hs => by
      have hnext := hstep i hi j hj s _ hs
      have hplot : plot (x0 + i) (y0 + j) (f i j) (fun x y => Q y x) =
          fun x y => plot (y0 + j) (x0 + i) (f i j) Q y x := by
        funext x y
        simp only [plot, and_comm]
      rwa [hplot] at hnext) s hR
  have hregion : (fun x y => region y0 x0 h w (fun j i => f i j) (fun x y => P y x) y x) =
      region x0 y0 w h f P := by
    funext x y
    simp only [region, and_comm]
  rwa [hregion] at hrows

end Plot

/-! ## Drawing -/

section Draw

variable {base : BitVec 32} {pitch height x y : ℤ} {m0 : Mem} {P : Picture (BitVec 16)}

/-- A memory shows a picture, and nothing else of it has changed since `m0`. -/
structure Draws (base : BitVec 32) (pitch height : ℤ) (m0 m : Mem)
    (P : Picture (BitVec 16)) : Prop where
  shows : ∀ {x y}, Inside pitch height x y → picture m base pitch x y = P x y
  frame : ∀ b, pitch * height ≤ (b - base).toNat → m b = m0 b

theorem Draws.start (m : Mem) : Draws base pitch height m m (picture m base pitch) :=
  ⟨fun _ => rfl, fun _ _ => rfl⟩

/-- **A pixel that is stored is plotted.** -/
theorem Draws.store (h : Draws base pitch height m0 m P) (hsize : pitch * height ≤ 2 ^ 32)
    (hin : Inside pitch height x y) (f : BitVec 16 → BitVec 16) :
    Draws base pitch height m0 (store16 m (address base pitch x y)
      (f (load16 m (address base pitch x y)))) (plot x y f P) where
  shows := by
    intro x' y' hin'
    rw [picture_store16 hsize hin hin', plot]
    split_ifs with heq
    · obtain ⟨rfl, rfl⟩ := heq
      rw [← h.shows hin]
      rfl
    · exact h.shows hin'
  frame := by
    intro b hb
    have hoffset := hin.offset
    have hdist : (address base pitch x y - base).toNat = _ := hin.toNat_sub hsize
    rw [← h.frame b hb]
    apply store16_of_le
    bv_omega

end Draw

end Raster
