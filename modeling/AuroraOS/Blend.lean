/-
# Alpha blending

`channel_blend` and `rgb_blend` of `vga/vga_draw.h`.  Red and blue are blended in one product,
eight bits apart, and green in another one.  The two parts of a channel are joined with a
bitwise or, so the result is their sum only when they have no bit in common.
-/
import Mathlib.Tactic.Linarith
import AuroraOS.Lanes

namespace AuroraOS

open Lanes

/-! ## The code -/

/-- `channel_blend`. -/
def channelBlend (a b alpha : BitVec 32) : BitVec 32 :=
  let c1 := ((0x100 - alpha) * (a &&& 0xFF)) >>> 8
  let c2 := (alpha * (b &&& 0xFF)) >>> 8
  (c1 ||| c2) &&& 0xFF

/-- `rgb_blend`. -/
def rgbBlend (colora colorb alpha : BitVec 32) : BitVec 32 :=
  let rb1 := ((0x100 - alpha) * (colora &&& 0xFF00FF)) >>> 8
  let rb2 := (alpha * (colorb &&& 0xFF00FF)) >>> 8
  let g1 := ((0x100 - alpha) * (colora &&& 0x00FF00)) >>> 8
  let g2 := (alpha * (colorb &&& 0x00FF00)) >>> 8
  ((rb1 ||| rb2) &&& 0xFF00FF) + ((g1 ||| g2) &&& 0x00FF00)

/-- The factors of the products of `rgb_blend`. -/
def rgbProducts (colora colorb alpha : BitVec 32) : List (BitVec 32 × BitVec 32) :=
  [(0x100 - alpha, colora &&& 0xFF00FF), (alpha, colorb &&& 0xFF00FF),
    (0x100 - alpha, colora &&& 0x00FF00), (alpha, colorb &&& 0x00FF00)]

/-- They are the products of the code. -/
example (colora colorb alpha : BitVec 32) :
    (rgbProducts colora colorb alpha).map (fun p => (p.1 * p.2 : BitVec 32) >>> 8) =
      [((0x100 - alpha) * (colora &&& 0xFF00FF)) >>> 8, (alpha * (colorb &&& 0xFF00FF)) >>> 8,
        ((0x100 - alpha) * (colora &&& 0x00FF00)) >>> 8, (alpha * (colorb &&& 0x00FF00)) >>> 8] :=
  rfl

/-! ## Channels -/

/-- The channels of a colour. -/
inductive Channel where
  | blue
  | green
  | red
  deriving DecidableEq

/-- The byte of a channel in a word. -/
def Channel.index : Channel → ℕ
  | .blue => 0
  | .green => 1
  | .red => 2

/-- A channel of a colour. -/
def Channel.of (c : Channel) (color : BitVec 32) : BitVec 32 := (color >>> (8 * c.index)) &&& 0xFF

/-- The same as a number. -/
def Channel.value (c : Channel) (color : BitVec 32) : ℕ := lane 8 c.index color.toNat

theorem toNat_and_low (x : BitVec 32) : (x &&& 0xFF).toNat = x.toNat % 256 := by
  rw [BitVec.toNat_and]
  exact Nat.and_two_pow_sub_one_eq_mod x.toNat 8

theorem Channel.toNat_of (c : Channel) (color : BitVec 32) :
    (c.of color).toNat = c.value color := by
  rw [Channel.of, toNat_and_low, BitVec.toNat_ushiftRight, Nat.shiftRight_eq_div_pow]
  rfl

theorem Channel.value_lt (c : Channel) (color : BitVec 32) : c.value color < 256 :=
  lane_lt 8 c.index color.toNat

theorem Channel.value_or (c : Channel) (x y : BitVec 32) :
    c.value (x ||| y) = c.value x ||| c.value y := by
  rw [Channel.value, BitVec.toNat_or, lane_or]
  rfl

/-- A word as its four bytes. -/
theorem toNat_eq_bytes (x : BitVec 32) : x.toNat =
    Channel.blue.value x + 2 ^ 8 * Channel.green.value x + 2 ^ 16 * Channel.red.value x +
      2 ^ 24 * lane 8 3 x.toNat := by
  have hx := x.isLt
  simp only [Channel.value, Channel.index, lane]
  omega

/-- Red and blue. -/
theorem toNat_and_redBlue (x : BitVec 32) :
    (x &&& 0xFF00FF).toNat = Channel.blue.value x + 2 ^ 16 * Channel.red.value x := by
  have hb : Channel.blue.value (x &&& 0xFF00FF) = Channel.blue.value x :=
    lane_and_ones x.toNat (by decide)
  have hg : Channel.green.value (x &&& 0xFF00FF) = 0 := lane_and_zero x.toNat (by decide)
  have hr : Channel.red.value (x &&& 0xFF00FF) = Channel.red.value x :=
    lane_and_ones x.toNat (by decide)
  have hhigh : lane 8 3 (x &&& 0xFF00FF).toNat = 0 := lane_and_zero x.toNat (by decide)
  rw [toNat_eq_bytes (x &&& 0xFF00FF), hb, hg, hr, hhigh]
  rfl

/-- Green. -/
theorem toNat_and_green (x : BitVec 32) :
    (x &&& 0x00FF00).toNat = 2 ^ 8 * Channel.green.value x := by
  have hb : Channel.blue.value (x &&& 0x00FF00) = 0 := lane_and_zero x.toNat (by decide)
  have hg : Channel.green.value (x &&& 0x00FF00) = Channel.green.value x :=
    lane_and_ones x.toNat (by decide)
  have hr : Channel.red.value (x &&& 0x00FF00) = 0 := lane_and_zero x.toNat (by decide)
  have hhigh : lane 8 3 (x &&& 0x00FF00).toNat = 0 := lane_and_zero x.toNat (by decide)
  rw [toNat_eq_bytes (x &&& 0x00FF00), hb, hg, hr, hhigh, Nat.zero_add]
  rfl

/-! ## The products -/

theorem toNat_beta {alpha : BitVec 32} (h : alpha.toNat < 256) :
    (0x100 - alpha).toNat = 256 - alpha.toNat := by
  rw [BitVec.toNat_sub, show (0x100 : BitVec 32).toNat = 256 from rfl]
  omega

theorem redBlue_lt (x : BitVec 32) : (x &&& 0xFF00FF).toNat < 2 ^ 24 := by
  have hb := Channel.blue.value_lt x
  have hr := Channel.red.value_lt x
  rw [toNat_and_redBlue]
  omega

theorem green_lt (x : BitVec 32) : (x &&& 0x00FF00).toNat < 2 ^ 24 := by
  have hg := Channel.green.value_lt x
  rw [toNat_and_green]
  omega

/-- No product of a weight and masked bytes needs more than 32 bits. -/
theorem product_lt {k m : ℕ} (hk : k ≤ 256) (hm : m < 2 ^ 24) : k * m < 2 ^ 32 :=
  calc k * m ≤ 256 * m := Nat.mul_le_mul_right m hk
    _ < 2 ^ 32 := by omega

theorem toNat_product {k m : BitVec 32} (hk : k.toNat ≤ 256) (hm : m.toNat < 2 ^ 24) :
    ((k * m) >>> 8).toNat = k.toNat * m.toNat / 256 := by
  rw [BitVec.toNat_ushiftRight, BitVec.toNat_mul, Nat.mod_eq_of_lt (product_lt hk hm),
    Nat.shiftRight_eq_div_pow]

/-- A weighted byte is a byte after the shift. -/
theorem weighted_lt {k v : ℕ} (hk : k ≤ 256) (hv : v < 256) : k * v / 256 < 256 := by
  have h : k * v ≤ 256 * v := Nat.mul_le_mul_right v hk
  omega

/-- The product of red and blue: the low byte of red's part stays in the byte of green. -/
theorem value_redBlue_product {k : BitVec 32} (hk : k.toNat ≤ 256) (x : BitVec 32) :
    Channel.blue.value ((k * (x &&& 0xFF00FF)) >>> 8) = k.toNat * Channel.blue.value x / 256 ∧
      Channel.red.value ((k * (x &&& 0xFF00FF)) >>> 8) = k.toNat * Channel.red.value x / 256 := by
  have hb := weighted_lt hk (Channel.blue.value_lt x)
  have hr := weighted_lt hk (Channel.red.value_lt x)
  have hsplit : k.toNat * (Channel.blue.value x + 2 ^ 16 * Channel.red.value x) =
      k.toNat * Channel.blue.value x + 65536 * (k.toNat * Channel.red.value x) := by ring
  have hword : ((k * (x &&& 0xFF00FF)) >>> 8).toNat =
      k.toNat * Channel.blue.value x / 256 + 256 * (k.toNat * Channel.red.value x) := by
    rw [toNat_product hk (redBlue_lt x), toNat_and_redBlue, hsplit]
    omega
  constructor
  · rw [Channel.value, hword, lane, Channel.index]
    omega
  · rw [Channel.value, hword, lane, Channel.index]
    omega

/-- The product of green: the low byte of its part stays in the byte of blue. -/
theorem value_green_product {k : BitVec 32} (hk : k.toNat ≤ 256) (x : BitVec 32) :
    Channel.green.value ((k * (x &&& 0x00FF00)) >>> 8) = k.toNat * Channel.green.value x / 256 := by
  have hg := weighted_lt hk (Channel.green.value_lt x)
  have hword : ((k * (x &&& 0x00FF00)) >>> 8).toNat = k.toNat * Channel.green.value x := by
    rw [toNat_product hk (green_lt x), toNat_and_green, Nat.mul_left_comm]
    omega
  rw [Channel.value, hword, lane, Channel.index]
  omega

/-! ## The channels of the result -/

/-- The two weighted parts of a channel, joined as in the code. -/
def mix (alpha x y : ℕ) : ℕ := (256 - alpha) * x / 256 ||| alpha * y / 256

theorem mix_lt {alpha x y : ℕ} (ha : alpha < 256) (hx : x < 256) (hy : y < 256) :
    mix alpha x y < 256 :=
  Nat.or_lt_two_pow (n := 8) (weighted_lt (by omega) hx) (weighted_lt (by omega) hy)

/-- One channel alone. -/
theorem toNat_channelBlend {alpha : BitVec 32} (h : alpha.toNat < 256) {a b : BitVec 32}
    (ha : a.toNat < 256) (hb : b.toNat < 256) :
    (channelBlend a b alpha).toNat = mix alpha.toNat a.toNat b.toNat := by
  have hbeta := toNat_beta h
  have hlow : ∀ {x : BitVec 32}, x.toNat < 256 → (x &&& 0xFF).toNat = x.toNat := fun hx =>
    (toNat_and_low _).trans (Nat.mod_eq_of_lt hx)
  have hmix := mix_lt h ha hb
  rw [channelBlend, toNat_and_low, BitVec.toNat_or,
    toNat_product (by omega) (by rw [hlow ha]; omega), toNat_product (by omega)
      (by rw [hlow hb]; omega), hlow ha, hlow hb, hbeta]
  exact Nat.mod_eq_of_lt hmix

/-- **The three channels of `rgb_blend`**, and an empty high byte. -/
theorem toNat_rgbBlend (a b : BitVec 32) {alpha : BitVec 32} (h : alpha.toNat < 256) :
    (rgbBlend a b alpha).toNat =
      mix alpha.toNat (Channel.blue.value a) (Channel.blue.value b) +
        2 ^ 8 * mix alpha.toNat (Channel.green.value a) (Channel.green.value b) +
        2 ^ 16 * mix alpha.toNat (Channel.red.value a) (Channel.red.value b) := by
  have hbeta := toNat_beta h
  have hk : (0x100 - alpha).toNat ≤ 256 := by omega
  have hk' : alpha.toNat ≤ 256 := by omega
  have hlt : ∀ c : Channel, mix alpha.toNat (c.value a) (c.value b) < 256 := fun c =>
    mix_lt h (c.value_lt a) (c.value_lt b)
  have hb := hlt .blue
  have hg := hlt .green
  have hr := hlt .red
  obtain ⟨hab, har⟩ := value_redBlue_product hk a
  obtain ⟨hbb, hbr⟩ := value_redBlue_product hk' b
  rw [rgbBlend, BitVec.toNat_add, toNat_and_redBlue, toNat_and_green, Channel.value_or,
    Channel.value_or, Channel.value_or, hab, har, hbb, hbr, value_green_product hk,
    value_green_product hk', hbeta]
  simp only [mix] at hb hg hr ⊢
  omega

theorem value_rgbBlend (a b : BitVec 32) {alpha : BitVec 32} (h : alpha.toNat < 256)
    (c : Channel) : c.value (rgbBlend a b alpha) = mix alpha.toNat (c.value a) (c.value b) := by
  have hlt : ∀ c : Channel, mix alpha.toNat (c.value a) (c.value b) < 256 := fun c =>
    mix_lt h (c.value_lt a) (c.value_lt b)
  have hb := hlt .blue
  have hg := hlt .green
  have hr := hlt .red
  rw [Channel.value, toNat_rgbBlend a b h, lane]
  cases c <;> simp only [Channel.index] <;> omega

/-! ## The packed blend and the blend of one channel -/

/-- **`rgb_blend` is `channel_blend` on every channel.**  The high byte of the result is empty and
no product overflows. -/
theorem rgbBlend_channels (a b alpha : BitVec 32) (h : alpha.toNat < 256) :
    (∀ c : Channel, c.of (rgbBlend a b alpha) = channelBlend (c.of a) (c.of b) alpha) ∧
      rgbBlend a b alpha >>> 24 = 0 ∧
      ∀ p ∈ rgbProducts a b alpha, p.1.toNat * p.2.toNat < 2 ^ 32 := by
  refine ⟨?_, ?_, ?_⟩
  · intro c
    apply BitVec.eq_of_toNat_eq
    have hof : ∀ x : BitVec 32, (c.of x).toNat < 256 := fun x => by
      rw [c.toNat_of]
      exact c.value_lt x
    rw [c.toNat_of, value_rgbBlend a b h, toNat_channelBlend h (hof a) (hof b), c.toNat_of,
      c.toNat_of]
  · apply BitVec.eq_of_toNat_eq
    have hlt : ∀ c : Channel, mix alpha.toNat (c.value a) (c.value b) < 256 := fun c =>
      mix_lt h (c.value_lt a) (c.value_lt b)
    have hb := hlt .blue
    have hg := hlt .green
    have hr := hlt .red
    rw [BitVec.toNat_ushiftRight, toNat_rgbBlend a b h, Nat.shiftRight_eq_div_pow,
      show (0 : BitVec 32).toNat = 0 from rfl]
    omega
  · have hbeta := toNat_beta h
    have hk : (0x100 - alpha).toNat ≤ 256 := by omega
    have hk' : alpha.toNat ≤ 256 := by omega
    intro p hp
    simp only [rgbProducts, List.mem_cons, List.not_mem_nil, or_false] at hp
    rcases hp with rfl | rfl | rfl | rfl
    · exact product_lt hk (redBlue_lt a)
    · exact product_lt hk' (redBlue_lt b)
    · exact product_lt hk (green_lt a)
    · exact product_lt hk' (green_lt b)

/-- White over black with half of its weight, with bits in the high bytes. -/
theorem rgbBlend_channels_grey : (128 : BitVec 32).toNat < 256 ∧
    Channel.red.of (rgbBlend 0x12000000 0x80FFFFFF 128) =
      channelBlend (Channel.red.of 0x12000000) (Channel.red.of 0x80FFFFFF) 128 :=
  ⟨by decide, (rgbBlend_channels 0x12000000 0x80FFFFFF 128 (by decide)).1 .red⟩

/-! ## Weighted averages -/

/-- The weighted average of a channel, each part rounded down. -/
def weighted (alpha x y : ℕ) : ℕ := (256 - alpha) * x / 256 + alpha * y / 256

/-- The two parts of a channel have no bit in common. -/
def PartsApart (alpha x y : ℕ) : Prop := (256 - alpha) * x / 256 &&& alpha * y / 256 = 0

instance (alpha x y : ℕ) : Decidable (PartsApart alpha x y) := inferInstanceAs (Decidable (_ = _))

theorem mix_eq_weighted_iff (alpha x y : ℕ) :
    mix alpha x y = weighted alpha x y ↔ PartsApart alpha x y :=
  or_eq_add_iff _ _

theorem weights_add {alpha : ℕ} (h : alpha < 256) (v : ℕ) :
    (256 - alpha) * v + alpha * v = 256 * v := by
  rw [← Nat.add_mul, Nat.sub_add_cancel h.le]

theorem weighted_le_max {alpha : ℕ} (h : alpha < 256) (x y : ℕ) :
    weighted alpha x y ≤ max x y := by
  have hx : (256 - alpha) * x ≤ (256 - alpha) * max x y := Nat.mul_le_mul_left _ (le_max_left x y)
  have hy : alpha * y ≤ alpha * max x y := Nat.mul_le_mul_left _ (le_max_right x y)
  have hsum := weights_add h (max x y)
  rw [weighted]
  omega

/-- Rounding both parts down loses less than two. -/
theorem min_le_weighted {alpha : ℕ} (h : alpha < 256) (x y : ℕ) :
    min x y ≤ weighted alpha x y + 1 := by
  have hx : (256 - alpha) * min x y ≤ (256 - alpha) * x := Nat.mul_le_mul_left _ (min_le_left x y)
  have hy : alpha * min x y ≤ alpha * y := Nat.mul_le_mul_left _ (min_le_right x y)
  have hsum := weights_add h (min x y)
  rw [weighted]
  omega

theorem weighted_mono (alpha : ℕ) {x x' y y' : ℕ} (hx : x ≤ x') (hy : y ≤ y') :
    weighted alpha x y ≤ weighted alpha x' y' :=
  Nat.add_le_add (Nat.div_le_div_right (Nat.mul_le_mul_left _ hx))
    (Nat.div_le_div_right (Nat.mul_le_mul_left _ hy))

/-- **When blending is a weighted average**: exactly when on every channel the two parts have no
bit in common. -/
theorem rgbBlend_weighted_iff (bg fg alpha : BitVec 32) (h : alpha.toNat < 256) :
    (∀ c : Channel,
      c.value (rgbBlend bg fg alpha) = weighted alpha.toNat (c.value bg) (c.value fg) ∧
      c.value (rgbBlend bg fg alpha) ≤ max (c.value bg) (c.value fg) ∧
      min (c.value bg) (c.value fg) ≤ c.value (rgbBlend bg fg alpha) + 1 ∧
      ∀ bg' fg' : BitVec 32, PartsApart alpha.toNat (c.value bg') (c.value fg') →
        c.value bg ≤ c.value bg' → c.value fg ≤ c.value fg' →
          c.value (rgbBlend bg fg alpha) ≤ c.value (rgbBlend bg' fg' alpha)) ↔
      ∀ c : Channel, PartsApart alpha.toNat (c.value bg) (c.value fg) := by
  constructor
  · intro hsum c
    rw [← mix_eq_weighted_iff, ← value_rgbBlend bg fg h]
    exact (hsum c).1
  · intro hapart c
    have hvalue : ∀ x y : BitVec 32, PartsApart alpha.toNat (c.value x) (c.value y) →
        c.value (rgbBlend x y alpha) = weighted alpha.toNat (c.value x) (c.value y) :=
      fun x y hxy => (value_rgbBlend x y h c).trans ((mix_eq_weighted_iff _ _ _).mpr hxy)
    rw [hvalue bg fg (hapart c)]
    refine ⟨rfl, weighted_le_max h _ _, min_le_weighted h _ _, ?_⟩
    intro bg' fg' hapart' hbg hfg
    rw [hvalue bg' fg' hapart']
    exact weighted_mono alpha.toNat hbg hfg

/-- Half white over black. -/
theorem rgbBlend_weighted_black : (128 : BitVec 32).toNat < 256 ∧
    Channel.red.value (rgbBlend 0 0xFFFFFF 128) = weighted 128 0 255 := by
  refine ⟨by decide, ?_⟩
  have hiff := rgbBlend_weighted_iff 0 0xFFFFFF 128 (by decide)
  exact (hiff.mpr (by intro c; cases c <;> decide) .red).1

/-- Half white over the white of the screen comes out as grey. -/
theorem rgbBlend_white_grey : Channel.red.value (rgbBlend 0xF8F8F8 0xFFFFFF 128) = 127 ∧
    weighted 128 (Channel.red.value 0xF8F8F8) (Channel.red.value 0xFFFFFF) = 251 ∧
    min (Channel.red.value 0xF8F8F8) (Channel.red.value 0xFFFFFF) = 248 := by decide

end AuroraOS
