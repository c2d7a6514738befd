/-
# The RTC device

`rtc.c` without its interrupt handler: the control block of a task and the
system calls on it.
-/
import AuroraOS.Kernel

namespace AuroraOS

/-- `RTC_HARDWARE_FREQUENCY`. -/
abbrev rtcHardwareFrequency : ℤ := 256

/-- `rtc_control_init`: the counter stays as it is. -/
def rtcControlInit (rtc : RtcControl) : RtcControl := { rtc with targetFreq := -1 }

/-- The loop of `is_power_of_two`; the remainder halves, so 32 rounds are enough. -/
def powerOfTwoLoop : ℕ → BitVec 32 → ℤ → ℤ
  | 0, _, power => power
  | n + 1, remainder, power =>
    if 1 < remainder.toNat then
      if remainder &&& 1 = 1 then -1
      else powerOfTwoLoop n (remainder >>> 1) (power + 1)
    else power

/-- `is_power_of_two`. -/
def isPowerOfTwo (input : BitVec 32) : ℤ := powerOfTwoLoop 32 input 0

/-- `RTC_HARDWARE_FREQUENCY / frequency / 4`. -/
def rtcRefill (frequency : ℤ) : Except Fault ℤ :=
  if frequency = 0 then .error .divideByZero
  else .ok ((rtcHardwareFrequency.tdiv frequency).tdiv 4)

/-- `system_rtc_open`. -/
def systemRtcOpen (rtc : RtcControl) : RtcControl := { rtc with targetFreq := 2 }

/-- `system_rtc_write`; `word` is `*((int32_t *) buf)`. -/
def systemRtcWrite (rtc : RtcControl) (bufNull : Bool) (word : BitVec 32) (nbytes : ℤ) :
    Except Fault (ℤ × RtcControl) :=
  if bufNull then .ok (-1, rtc)
  else if nbytes ≠ 4 then .ok (-1, rtc)
  else if isPowerOfTwo word = -1 then .ok (-1, rtc)
  else do
    let counter ← rtcRefill word.toInt
    .ok (0, { targetFreq := word.toInt, counter := counter })

end AuroraOS
