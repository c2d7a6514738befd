/-
# The frequencies that the RTC accepts

`system_rtc_write` with `is_power_of_two`, for every word that can be written, and the
counter that the next read loads.  The test for a power of two also accepts 0 and 1, and
has no upper end; from 128 on the counter comes out as 0.
-/
import AuroraOS.RtcWakeUp

namespace AuroraOS

open Kernel Machine

variable {word : BitVec 32}

/-! ## The test for a power of two -/

theorem and_one_eq_one_iff (r : BitVec 32) : r &&& 1 = 1 ↔ r.toNat % 2 = 1 := by
  rw [← BitVec.toNat_inj, BitVec.toNat_and]
  show r.toNat &&& 1 = 1 ↔ _
  rw [Nat.and_one_is_mod]

theorem toNat_shiftRight_one (r : BitVec 32) : (r >>> 1).toNat = r.toNat / 2 := by
  rw [BitVec.toNat_ushiftRight, Nat.shiftRight_eq_div_pow, pow_one]

theorem accepts_of_le_one {r : ℕ} (h : r ≤ 1) : r = 0 ∨ ∃ e, r = 2 ^ e := by
  by_cases h0 : r = 0
  · exact Or.inl h0
  · exact Or.inr ⟨0, by omega⟩

/-- **What the test accepts**: 0, and every power of two.  The induction is on the rounds, in
each of which the remainder halves. -/
theorem powerOfTwoLoop_accepts : ∀ {n : ℕ} {r : BitVec 32} {p : ℤ}, 0 ≤ p → r.toNat < 2 ^ (n + 1) →
    (powerOfTwoLoop n r p ≠ -1 ↔ r.toNat = 0 ∨ ∃ e, r.toNat = 2 ^ e) := by
  intro n
  induction n with
  | zero =>
    intro r p hp hr
    rw [powerOfTwoLoop]
    exact iff_of_true (by omega) (accepts_of_le_one (by omega))
  | succ n ih =>
    intro r p hp hr
    rw [powerOfTwoLoop]
    by_cases hone : 1 < r.toNat
    · rw [if_pos hone]
      by_cases hodd : r &&& 1 = 1
      · -- an odd number above 1 is no power of two
        rw [if_pos hodd]
        rw [and_one_eq_one_iff] at hodd
        refine iff_of_false (fun h => h rfl) ?_
        rintro (h0 | ⟨e, he⟩)
        · omega
        · cases e with
          | zero => omega
          | succ e =>
            rw [he, pow_succ] at hodd
            omega
      · rw [if_neg hodd, ih (by omega) (by rw [toNat_shiftRight_one]; omega),
          toNat_shiftRight_one]
        rw [and_one_eq_one_iff] at hodd
        have hhalf : r.toNat = 2 * (r.toNat / 2) := by omega
        refine ⟨?_, ?_⟩
        · rintro (h0 | ⟨e, he⟩)
          · omega
          · exact Or.inr ⟨e + 1, by rw [pow_succ, ← he]; omega⟩
        · rintro (h0 | ⟨e, he⟩)
          · omega
          · cases e with
            | zero => omega
            | succ e =>
              rw [pow_succ] at he
              exact Or.inr ⟨e, by omega⟩
    · rw [if_neg hone]
      exact iff_of_true (by omega) (accepts_of_le_one (Nat.not_lt.mp hone))

theorem isPowerOfTwo_accepts (word : BitVec 32) :
    isPowerOfTwo word ≠ -1 ↔ word.toNat = 0 ∨ ∃ e, word.toNat = 2 ^ e :=
  powerOfTwoLoop_accepts (le_refl 0) (Nat.lt_of_lt_of_le word.isLt (by norm_num))

/-! ## The counter -/

/-- The counter of a frequency that is a power of two; from 128 on it is 0. -/
theorem rtcRefill_pow {e : ℕ} (h : word.toNat = 2 ^ e) :
    rtcRefill word.toInt = .ok (if e ≤ 6 then 2 ^ (6 - e) else 0) := by
  have he : e < 32 := by
    by_contra hlt
    have := Nat.pow_le_pow_right (show 0 < 2 by decide) (Nat.not_lt.mp hlt)
    have := word.isLt
    omega
  have hword : word = BitVec.ofNat 32 (2 ^ e) := by
    rw [← h, BitVec.ofNat_toNat, BitVec.setWidth_eq]
  subst hword
  interval_cases e <;> rfl

/-- A reader with the control block `rtc` loads a counter of at least 1, and is woken by
exactly that interrupt, whatever else happens. -/
def Serves (rtc : RtcControl) : Prop :=
  ∃ c : ℤ, 1 ≤ c ∧ rtcRefill rtc.targetFreq = .ok c ∧
    ∀ (k k' : Kernel) (noise : Noise), k.RtcWaiting → k.running ∈ k.taskList .runQueue →
      k.runningTask.parent ≠ none → k.runningTask.rtc = rtc → k.systemRtcRead noise = .ok k' →
        (k'.task k.running).rtc.counter = c ∧
          ∀ bs k'', RtcRun k' bs k'' → WokenAt k.running c bs k''

theorem serves_of_refill {rtc : RtcControl} {c : ℤ} (hc : 1 ≤ c)
    (h : rtcRefill rtc.targetFreq = .ok c) : Serves rtc := by
  refine ⟨c, hc, h, fun k k' noise hw hr hp hrtc hread => ?_⟩
  obtain ⟨hw', -, hself⟩ := hw.sleep hr hp hread
  have hfreq : k.runningTask.rtc.targetFreq ≠ -1 := by
    rw [hrtc]
    intro hn
    rw [hn] at h
    have hneg : rtcRefill (-1) = .ok (-64) := rfl
    have := Except.ok.inj (hneg.symm.trans h)
    omega
  obtain ⟨hx, hrefill⟩ := hself hfreq
  rw [hrtc, h] at hrefill
  have hcounter := (Except.ok.inj hrefill).symm
  refine ⟨hcounter, fun bs k'' hrun => ?_⟩
  rw [← hcounter]
  exact hw'.run hrun k.running hx (hcounter ▸ hc)

/-! ## The result -/

/-- What a write to the RTC should do: not fault, accept nothing but the frequencies from 2 to
1024 that are powers of two, serve the next reader with what it accepts, and change nothing
otherwise. -/
def Admits (rtc : RtcControl) (bufNull : Bool) (word : BitVec 32) (nbytes : ℤ) : Prop :=
  ∃ ret rtc', systemRtcWrite rtc bufNull word nbytes = .ok (ret, rtc') ∧
    (ret = 0 → ∃ e, 1 ≤ e ∧ e ≤ 10 ∧ word.toNat = 2 ^ e) ∧
    (ret = 0 → Serves rtc') ∧ (ret ≠ 0 → rtc' = rtc)

/-- The word is not one of those for which the admission goes wrong: 0, 1, and the powers of
two from 128 on. -/
def GoodWord (word : BitVec 32) : Prop :=
  word.toNat ≠ 0 ∧ word.toNat ≠ 1 ∧ ∀ e, 7 ≤ e → word.toNat ≠ 2 ^ e

theorem admits_of_refused {rtc : RtcControl} {bufNull : Bool} {nbytes : ℤ}
    (h : systemRtcWrite rtc bufNull word nbytes = .ok (-1, rtc)) : Admits rtc bufNull word nbytes :=
  ⟨-1, rtc, h, fun h0 => absurd h0 (by decide), fun h0 => absurd h0 (by decide), fun _ => rfl⟩

/-- A word that is looked at. -/
theorem admits_word_iff (rtc : RtcControl) (word : BitVec 32) :
    Admits rtc false word 4 ↔ GoodWord word := by
  have hwrite : systemRtcWrite rtc false word 4 = if isPowerOfTwo word = -1 then .ok (-1, rtc)
      else rtcRefill word.toInt >>= fun counter =>
        .ok (0, { targetFreq := word.toInt, counter := counter }) := rfl
  by_cases hacc : isPowerOfTwo word = -1
  · -- the word is refused, so it is neither 0 nor a power of two
    have hnot := mt (isPowerOfTwo_accepts word).mpr (not_not.mpr hacc)
    rw [not_or, not_exists] at hnot
    refine iff_of_true (admits_of_refused (hwrite.trans (if_pos hacc))) ⟨hnot.1, hnot.2 0, ?_⟩
    exact fun e _ => hnot.2 e
  · rw [if_neg hacc] at hwrite
    rcases (isPowerOfTwo_accepts word).mp hacc with h0 | ⟨e, he⟩
    · -- a division by zero
      have hzero : word.toInt = 0 := by
        rw [BitVec.toInt_eq_toNat_cond, h0]
        rfl
      refine iff_of_false ?_ fun hg => hg.1 h0
      rintro ⟨ret, rtc', hw, -⟩
      rw [hwrite, hzero] at hw
      cases hw
    · rw [rtcRefill_pow he, ok_bind] at hwrite
      by_cases hgood : 1 ≤ e ∧ e ≤ 6
      · refine iff_of_true ⟨0, _, hwrite, fun _ => ⟨e, hgood.1, by omega, he⟩, fun _ => ?_,
          fun hne => absurd rfl hne⟩ ⟨?_, ?_, fun e' he' h => ?_⟩
        · have hpos : (1 : ℤ) ≤ 2 ^ (6 - e) := one_le_pow₀ (by decide)
          exact serves_of_refill hpos ((rtcRefill_pow he).trans (by rw [if_pos hgood.2]))
        · rw [he]
          exact (Nat.two_pow_pos e).ne'
        · rw [he]
          exact (Nat.one_lt_two_pow (by omega)).ne'
        · have := Nat.pow_right_injective (le_refl 2) (he.symm.trans h)
          omega
      · refine iff_of_false ?_ fun hg => ?_
        · rintro ⟨ret, rtc', hw, hrange, hserves, -⟩
          obtain ⟨rfl, rfl⟩ := Prod.mk.inj (Except.ok.inj (hwrite.symm.trans hw))
          obtain ⟨e', h1, -, he'⟩ := hrange rfl
          obtain rfl := Nat.pow_right_injective (le_refl 2) (he.symm.trans he')
          obtain ⟨c, hc, hrefill, -⟩ := hserves rfl
          have hlarge : ¬ e ≤ 6 := by omega
          have := Except.ok.inj ((rtcRefill_pow he).symm.trans hrefill)
          rw [if_neg hlarge] at this
          omega
        · by_cases hlarge : 7 ≤ e
          · exact hg.2.2 e hlarge he
          · obtain rfl : e = 0 := by omega
            exact hg.2.1 he

end AuroraOS
