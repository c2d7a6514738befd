/-
# The interrupt masks

`i8259.c` keeps the masks of two interrupt controllers, the second one behind line 2 of the first.
Whatever order interrupts are enabled and disabled in, those that reach the processor are the ones
that have been enabled last.
-/
import Mathlib

namespace AuroraOS

/-- The mask registers of the two chips. -/
structure Pic where
  masterMask : BitVec 8
  slaveMask : BitVec 8

/-- A bit of a mask cleared, and set. -/
def clearBit (mask : BitVec 8) (k : ℕ) : BitVec 8 := mask &&& ~~~((1 : BitVec 8) <<< k)
def setBit (mask : BitVec 8) (k : ℕ) : BitVec 8 := mask ||| (1 : BitVec 8) <<< k

section Bits

variable {j : ℕ} (mask : BitVec 8) (k : ℕ)

theorem getLsbD_one_shiftLeft (hj : j < 8) :
    ((1 : BitVec 8) <<< k).getLsbD j = decide (j = k) := by
  rw [BitVec.getLsbD_shiftLeft]
  by_cases hlt : j < k
  · have hne : j ≠ k := by omega
    simp only [hj, hlt, hne, decide_true, decide_false, Bool.not_true, Bool.and_false,
      Bool.false_and]
  · have heq : j - k = 0 ↔ j = k := by omega
    simp only [hj, hlt, decide_true, decide_false, Bool.not_false, Bool.true_and]
    simpa using heq

theorem getLsbD_clearBit (hj : j < 8) :
    (clearBit mask k).getLsbD j = (mask.getLsbD j && !decide (j = k)) := by
  rw [clearBit, BitVec.getLsbD_and, BitVec.getLsbD_not, getLsbD_one_shiftLeft k hj]
  simp only [hj, decide_true, Bool.true_and]

theorem getLsbD_setBit (hj : j < 8) :
    (setBit mask k).getLsbD j = (mask.getLsbD j || decide (j = k)) := by
  rw [setBit, BitVec.getLsbD_or, getLsbD_one_shiftLeft k hj]

end Bits

namespace Pic

/-! ## The code -/

/-- `i8259_init` leaves the masks that it has set first. -/
def i8259Init : Pic := ⟨0xFF, 0xFF⟩

variable (s : Pic)

/-- `enable_irq`. -/
def enableIrq (irqNum : ℕ) : Pic :=
  if 8 ≤ irqNum then
    { slaveMask := clearBit s.slaveMask (irqNum - 8), masterMask := clearBit s.masterMask 2 }
  else { s with masterMask := clearBit s.masterMask irqNum }

/-- `disable_irq`. -/
def disableIrq (irqNum : ℕ) : Pic :=
  if 8 ≤ irqNum then { s with slaveMask := setBit s.slaveMask (irqNum - 8) }
  else { s with masterMask := setBit s.masterMask irqNum }

/-- The bit for an interrupt. -/
def masked (n : ℕ) : Bool :=
  if 8 ≤ n then s.slaveMask.getLsbD (n - 8) else s.masterMask.getLsbD n

/-- An interrupt reaches the processor: no chip on its way masks it. -/
def Delivers (n : ℕ) : Prop := s.masked n = false ∧ (8 ≤ n → s.masked 2 = false)

variable {s} {irq n : ℕ}

theorem masked_enableIrq (hirq : irq < 16) (hn : n < 16) :
    (s.enableIrq irq).masked n =
      (s.masked n && !decide (n = irq) && !decide (n = 2 ∧ 8 ≤ irq)) := by
  rw [enableIrq, masked, masked]
  by_cases hs : 8 ≤ irq
  · by_cases hn' : 8 ≤ n
    · have heq : (n - 8 = irq - 8) ↔ n = irq := by omega
      have hne : n ≠ 2 := by omega
      simp only [if_pos hs, if_pos hn', getLsbD_clearBit _ _ (show n - 8 < 8 by omega), heq,
        hne, false_and, decide_false, Bool.not_false, Bool.and_true]
    · have hne : n ≠ irq := by omega
      have hline : (n = 2 ∧ 8 ≤ irq) ↔ n = 2 := and_iff_left hs
      simp only [if_pos hs, if_neg hn', getLsbD_clearBit _ _ (Nat.not_le.mp hn'), hne, hline,
        decide_false, Bool.not_false, Bool.and_true]
  · by_cases hn' : 8 ≤ n
    · have hne : n ≠ irq := by omega
      simp [hs, hn', hne]
    · simp [hs, hn', getLsbD_clearBit _ _ (Nat.not_le.mp hn')]

theorem masked_disableIrq (hirq : irq < 16) (hn : n < 16) :
    (s.disableIrq irq).masked n = (s.masked n || decide (n = irq)) := by
  rw [disableIrq, masked, masked]
  by_cases hs : 8 ≤ irq
  · by_cases hn' : 8 ≤ n
    · have heq : (n - 8 = irq - 8) ↔ n = irq := by omega
      simp only [if_pos hs, if_pos hn', getLsbD_setBit _ _ (show n - 8 < 8 by omega), heq]
    · have hne : n ≠ irq := by omega
      simp [hs, hn', hne]
  · by_cases hn' : 8 ≤ n
    · have hne : n ≠ irq := by omega
      simp [hs, hn', hne]
    · simp [hs, hn', getLsbD_setBit _ _ (Nat.not_le.mp hn')]

/-! ## Runs -/

/-- The calls of the drivers. -/
inductive Call
  | enable (irqNum : ℕ)
  | disable (irqNum : ℕ)

/-- A call that the assumption of the source allows; nobody disables the line between the chips. -/
def Call.Allowed : Call → Prop
  | enable irqNum => irqNum < 16
  | disable irqNum => irqNum < 16 ∧ irqNum ≠ 2

/-- What a call does. -/
def step (s : Pic) : Call → Pic
  | .enable irqNum => s.enableIrq irqNum
  | .disable irqNum => s.disableIrq irqNum

/-- What a call is for: a set of interrupts. -/
def wanted (f : ℕ → Bool) : Call → ℕ → Bool
  | .enable irqNum => Function.update f irqNum true
  | .disable irqNum => Function.update f irqNum false

/-- The masks are those of a set of interrupts, and the line between the chips is open if it is
needed. -/
structure Agrees (s : Pic) (f : ℕ → Bool) : Prop where
  masked : ∀ n < 16, n ≠ 2 → s.masked n = !f n
  line : ∀ n < 16, 8 ≤ n → f n = true → s.masked 2 = false

variable {f : ℕ → Bool}

theorem agrees_init : Agrees i8259Init fun _ => false where
  masked := by decide
  line := fun _ _ _ h => absurd h Bool.false_ne_true

/-- **A call does what it is for.** -/
theorem Agrees.step (h : Agrees s f) {c : Call} (hc : c.Allowed) :
    Agrees (s.step c) (wanted f c) := by
  cases c with
  | enable irq =>
    have hirq : irq < 16 := hc
    constructor
    · intro n hn hne
      show (s.enableIrq irq).masked n = !Function.update f irq true n
      rw [masked_enableIrq hirq hn, h.masked n hn hne, Function.update_apply]
      by_cases heq : n = irq
      · simp [heq]
      · simp [heq, hne]
    · intro n hn hlow hwanted
      show (s.enableIrq irq).masked 2 = false
      rw [masked_enableIrq hirq (by decide)]
      by_cases hs : 8 ≤ irq
      -- an interrupt of the second chip opens the line in any case
      · simp [hs]
      · have hwanted' : f n = true := by
          rwa [wanted, Function.update_of_ne (by omega)] at hwanted
        simp [h.line n hn hlow hwanted']
  | disable irq =>
    obtain ⟨hirq, hline⟩ : irq < 16 ∧ irq ≠ 2 := hc
    constructor
    · intro n hn hne
      show (s.disableIrq irq).masked n = !Function.update f irq false n
      rw [masked_disableIrq hirq hn, h.masked n hn hne, Function.update_apply]
      by_cases heq : n = irq
      · simp [heq]
      · simp [heq]
    · intro n hn hlow hwanted
      -- the line stays open when the last interrupt of the second chip is disabled
      show (s.disableIrq irq).masked 2 = false
      have hne : n ≠ irq := by
        rintro rfl
        rw [wanted, Function.update_self] at hwanted
        exact Bool.false_ne_true hwanted
      rw [wanted, Function.update_of_ne hne] at hwanted
      rw [masked_disableIrq hirq (by decide), h.line n hn hlow hwanted]
      simp [hline.symm]

/-- Calls do what they are for, one after the other. -/
theorem Agrees.run {calls : List Call} : ∀ {s : Pic} {f : ℕ → Bool}, Agrees s f →
    (∀ c ∈ calls, c.Allowed) → Agrees (calls.foldl Pic.step s) (calls.foldl wanted f) := by
  induction calls with
  | nil => intro s f h _; exact h
  | cons c calls ih =>
    intro s f h hc
    exact ih (h.step (hc c List.mem_cons_self)) fun d hd => hc d (List.mem_cons_of_mem c hd)

/-- **The interrupts that reach the processor are those that have been enabled**, and not been
disabled since, after any run of calls from `i8259_init` on. -/
theorem irqs_delivered {calls : List Call} (hc : ∀ c ∈ calls, c.Allowed) {n : ℕ} (hn : n < 16)
    (hne : n ≠ 2) : (calls.foldl Pic.step i8259Init).Delivers n ↔
      calls.foldl wanted (fun _ => false) n = true := by
  have hrun := agrees_init.run hc
  rw [Delivers, hrun.masked n hn hne, Bool.not_eq_false']
  exact and_iff_left_of_imp fun hwanted hlow => hrun.line n hn hlow hwanted

/-- The calls at boot, and the keyboard disabled again. -/
theorem irqs_delivered_mouse :
    ([Call.enable 0, .enable 1, .enable 8, .enable 12, .disable 1].foldl Pic.step
      i8259Init).Delivers 12 := by
  rw [irqs_delivered (fun c hc => ?_) (by decide) (by decide)]
  · decide
  · simp only [List.mem_cons, List.not_mem_nil, or_false] at hc
    rcases hc with rfl | rfl | rfl | rfl | rfl
    · exact (by decide : 0 < 16)
    · exact (by decide : 1 < 16)
    · exact (by decide : 8 < 16)
    · exact (by decide : 12 < 16)
    · exact (by decide : 1 < 16 ∧ 1 ≠ 2)

end Pic

end AuroraOS
