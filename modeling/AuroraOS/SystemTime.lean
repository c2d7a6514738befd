/-
# The clock

`update_system_time` of `rtc.c` reads the time from the registers of the clock chip, which count in
decimal or binary, to twelve or to twenty-four; `render_clock` of `gui_render.c` prints it.  What
the chip shows is taken from the documentation of its registers.
-/
import AuroraOS.Render

namespace AuroraOS

/-- `rtc_second`, `rtc_minute`, `rtc_hour`, `rtc_day`, `rtc_month`. -/
structure SystemTime where
  second : UInt8
  minute : UInt8
  hour : UInt8
  day : UInt8
  month : UInt8

/-! ## The code -/

/-- A decimal register in binary. -/
def fromDecimal (c : UInt8) : UInt8 := (c &&& 0x0F) + c / 16 * 10

/-- The hour, with its bit for the afternoon. -/
def hourFromDecimal (c : UInt8) : UInt8 :=
  ((c &&& 0x0F) + (c &&& 0x70) / 16 * 10) ||| (c &&& 0x80)

/-- The last step: twelve hours become twenty-four. -/
def hourOfTwelve (registerB hour : UInt8) : UInt8 :=
  if registerB &&& 0x02 = 0 ∧ hour &&& 0x80 ≠ 0 then ((hour &&& 0x7F) + 12) % 24 else hour

/-- `update_system_time`, from the registers of the chip. -/
def updateSystemTime (cmos : ℕ → UInt8) (t : SystemTime) : SystemTime :=
  if cmos 0x0A &&& 0x80 ≠ 0 then t
  else
    let registerB := cmos 0x0B
    let t : SystemTime :=
      if registerB &&& 0x04 = 0 then
        { second := fromDecimal (cmos 0x00)
          minute := fromDecimal (cmos 0x02)
          hour := hourFromDecimal (cmos 0x04)
          day := fromDecimal (cmos 0x07)
          month := fromDecimal (cmos 0x08) }
      else ⟨cmos 0x00, cmos 0x02, cmos 0x04, cmos 0x07, cmos 0x08⟩
    { t with hour := hourOfTwelve registerB t.hour }

section Print

variable (currY : ℤ)

/-- `CLOCK_START_X`. -/
abbrev clockStartX : ℤ := vgaWidth - fontWidth * 8 - 5
/-- `CLOCK_START_Y`. -/
abbrev clockStartY : ℤ := 3

/-- `render_clock`. -/
def renderClock (t : SystemTime) : List Blit.Copy :=
  [printChar currY (48 + t.hour / 10) clockStartX clockStartY,
    printChar currY (48 + t.hour % 10) (clockStartX + fontWidth) clockStartY,
    printChar currY 58 (clockStartX + fontWidth * 2) clockStartY,
    printChar currY (48 + t.minute / 10) (clockStartX + fontWidth * 3) clockStartY,
    printChar currY (48 + t.minute % 10) (clockStartX + fontWidth * 4) clockStartY,
    printChar currY 58 (clockStartX + fontWidth * 5) clockStartY,
    printChar currY (48 + t.second / 10) (clockStartX + fontWidth * 6) clockStartY,
    printChar currY (48 + t.second % 10) (clockStartX + fontWidth * 7) clockStartY]

end Print

/-! ## The chip -/

/-- A time of the day, and a day of the year. -/
structure ClockTime where
  second : ℕ
  minute : ℕ
  hour : ℕ
  day : ℕ
  month : ℕ
  second_lt : second < 60
  minute_lt : minute < 60
  hour_lt : hour < 24
  day_lt : day < 32
  month_lt : month < 13

/-- A number in a register: in binary, or in decimal digits. -/
def register (registerB : UInt8) (n : ℕ) : UInt8 :=
  if registerB &&& 0x04 = 0 then UInt8.ofNat (n / 10 * 16 + n % 10) else UInt8.ofNat n

/-- The register of the hour: twelve follows eleven and comes before one, and the highest bit is
for the afternoon. -/
def hourRegister (registerB : UInt8) (hour : ℕ) : UInt8 :=
  if registerB &&& 0x02 = 0 then
    register registerB ((hour + 11) % 12 + 1) ||| if 12 ≤ hour then 0x80 else 0
  else register registerB hour

/-- The registers of a chip that shows a time and is not changing it. -/
structure ChipShows (cmos : ℕ → UInt8) (t : ClockTime) : Prop where
  steady : cmos 0x0A &&& 0x80 = 0
  second : cmos 0x00 = register (cmos 0x0B) t.second
  minute : cmos 0x02 = register (cmos 0x0B) t.minute
  hour : cmos 0x04 = hourRegister (cmos 0x0B) t.hour
  day : cmos 0x07 = register (cmos 0x0B) t.day
  month : cmos 0x08 = register (cmos 0x0B) t.month

/-! ## Reading the chip -/

theorem fromDecimal_digits : ∀ n < 60,
    fromDecimal (UInt8.ofNat (n / 10 * 16 + n % 10)) = UInt8.ofNat n := by
  decide

theorem hourFromDecimal_digits : ∀ n < 60,
    hourFromDecimal (UInt8.ofNat (n / 10 * 16 + n % 10)) = UInt8.ofNat n ∧
      hourFromDecimal (UInt8.ofNat (n / 10 * 16 + n % 10) ||| 0x80) = UInt8.ofNat n ||| 0x80 := by
  decide

/-- A register that holds a number. -/
theorem fromDecimal_register {b : UInt8} {n : ℕ} (hn : n < 60) :
    (if b &&& 0x04 = 0 then fromDecimal (register b n) else register b n) = UInt8.ofNat n := by
  rw [register]
  split_ifs
  · exact fromDecimal_digits n hn
  · rfl

/-- The number that the hour becomes in binary. -/
theorem hourFromDecimal_register {b : UInt8} {n : ℕ} (hn : n < 60) (afternoon : Prop)
    [Decidable afternoon] :
    (if b &&& 0x04 = 0 then hourFromDecimal (register b n ||| if afternoon then 0x80 else 0)
      else register b n ||| if afternoon then 0x80 else 0) =
        UInt8.ofNat n ||| if afternoon then 0x80 else 0 := by
  obtain ⟨hmorning, hafternoon⟩ := hourFromDecimal_digits n hn
  rw [register]
  split_ifs
  · exact hafternoon
  · rw [UInt8.or_zero, hmorning, UInt8.or_zero]
  · rfl
  · rfl

/-- The hour that is shown: to twelve, noon and midnight are exchanged. -/
def shownHour (registerB : UInt8) (hour : ℕ) : ℕ :=
  if registerB &&& 0x02 = 0 ∧ hour % 12 = 0 then 12 - hour else hour

theorem hourOfTwelve_afternoon : ∀ hour < 24,
    let c := UInt8.ofNat ((hour + 11) % 12 + 1) ||| if 12 ≤ hour then 0x80 else 0
    (if c &&& 0x80 ≠ 0 then ((c &&& 0x7F) + 12) % 24 else c) =
      UInt8.ofNat (if hour % 12 = 0 then 12 - hour else hour) := by
  decide

/-- The hour behind both conversions. -/
theorem hourOfTwelve_register (b : UInt8) {hour : ℕ} (h : hour < 24) :
    hourOfTwelve b (if b &&& 0x04 = 0 then hourFromDecimal (hourRegister b hour)
      else hourRegister b hour) = UInt8.ofNat (shownHour b hour) := by
  rw [hourRegister, hourOfTwelve, shownHour]
  by_cases htwelve : b &&& 0x02 = 0
  -- to twelve, the highest bit goes through the conversion from decimal unchanged
  · have hshown := hourOfTwelve_afternoon hour h
    rw [if_pos htwelve, hourFromDecimal_register (by omega)]
    simp only [htwelve, true_and]
    exact hshown
  -- to twenty-four, there is no such bit
  · have hbinary := hourFromDecimal_register (b := b) (n := hour) (by omega) False
    simp only [if_false, UInt8.or_zero] at hbinary
    rw [if_neg htwelve, hbinary, if_neg fun h => htwelve h.1, if_neg fun h => htwelve h.1]

variable {cmos : ℕ → UInt8} {t : ClockTime}

theorem updateSystemTime_eq (h : ChipShows cmos t) (old : SystemTime) :
    updateSystemTime cmos old = ⟨UInt8.ofNat t.second, UInt8.ofNat t.minute,
      UInt8.ofNat (shownHour (cmos 0x0B) t.hour), UInt8.ofNat t.day, UInt8.ofNat t.month⟩ := by
  have hsecond := fromDecimal_register (b := cmos 0x0B) t.second_lt
  have hminute := fromDecimal_register (b := cmos 0x0B) t.minute_lt
  have hhour := hourOfTwelve_register (cmos 0x0B) t.hour_lt
  have hday := fromDecimal_register (b := cmos 0x0B) (t.day_lt.trans (by decide))
  have hmonth := fromDecimal_register (b := cmos 0x0B) (t.month_lt.trans (by decide))
  rw [← h.second] at hsecond
  rw [← h.minute] at hminute
  rw [← h.hour] at hhour
  rw [← h.day] at hday
  rw [← h.month] at hmonth
  rw [updateSystemTime, if_neg (by rw [h.steady]; decide)]
  rw [← hsecond, ← hminute, ← hhour, ← hday, ← hmonth]
  dsimp only
  split_ifs <;> rfl

theorem shownHour_eq_iff {b : UInt8} {hour : ℕ} (h : hour < 24) :
    UInt8.ofNat (shownHour b hour) = UInt8.ofNat hour ↔ b &&& 0x02 ≠ 0 ∨ hour % 12 ≠ 0 := by
  rw [shownHour]
  split_ifs with hexchanged
  · have hne : UInt8.ofNat (12 - hour) ≠ UInt8.ofNat hour := by
      intro heq
      have hnat := congrArg UInt8.toNat heq
      rw [UInt8.toNat_ofNat', UInt8.toNat_ofNat'] at hnat
      omega
    simp only [hne, hexchanged, ne_eq, not_true_eq_false, or_self]
  · tauto

theorem digits_ofNat : ∀ n < 60, 48 + UInt8.ofNat n / 10 = UInt8.ofNat (48 + n / 10) ∧
    48 + UInt8.ofNat n % 10 = UInt8.ofNat (48 + n % 10) := by
  decide

/-- The text of a time: the decimal digits of hour, minute and second. -/
def clockText (hour minute second : ℕ) : List UInt8 :=
  [48 + hour / 10, 48 + hour % 10, 58, 48 + minute / 10, 48 + minute % 10, 58,
    48 + second / 10, 48 + second % 10].map UInt8.ofNat

/-- **The clock shows the time of the chip**, whether it counts in decimal or in binary, to twelve
or to twenty-four; only at noon and at midnight of a chip that counts to twelve the hour is wrong:
they are exchanged. -/
theorem clock_shown (h : ChipShows cmos t) (old : SystemTime) (currY : ℤ) :
    renderClock currY (updateSystemTime cmos old) =
        (clockText (shownHour (cmos 0x0B) t.hour) t.minute t.second).mapIdx
          (fun k ch => printChar currY ch (clockStartX + fontWidth * k) clockStartY) ∧
      ((updateSystemTime cmos old).hour = UInt8.ofNat t.hour ↔
        cmos 0x0B &&& 0x02 ≠ 0 ∨ t.hour % 12 ≠ 0) ∧
      (updateSystemTime cmos old).minute = UInt8.ofNat t.minute ∧
      (updateSystemTime cmos old).second = UInt8.ofNat t.second ∧
      (updateSystemTime cmos old).day = UInt8.ofNat t.day ∧
      (updateSystemTime cmos old).month = UInt8.ofNat t.month := by
  rw [updateSystemTime_eq h]
  refine ⟨?_, shownHour_eq_iff t.hour_lt, rfl, rfl, rfl, rfl⟩
  have hlt : shownHour (cmos 0x0B) t.hour < 60 := by
    have := t.hour_lt
    rw [shownHour]
    split_ifs <;> omega
  obtain ⟨hhour, hhour'⟩ := digits_ofNat _ hlt
  obtain ⟨hminute, hminute'⟩ := digits_ofNat _ t.minute_lt
  obtain ⟨hsecond, hsecond'⟩ := digits_ofNat _ t.second_lt
  rw [renderClock, hhour, hhour', hminute, hminute', hsecond, hsecond']
  rfl

/-- A chip that counts to twelve in decimal, at 12:34:56 in the afternoon. -/
theorem clock_shown_noon : (updateSystemTime (fun r => [0x56, 0, 0x34, 0, 0x92, 0, 0, 0x10,
    0x12, 0, 0, 0].getD r 0) ⟨0, 0, 0, 0, 0⟩).hour ≠ UInt8.ofNat 12 := by
  have hshows : ChipShows (fun r => [0x56, 0, 0x34, 0, 0x92, 0, 0, 0x10, 0x12, 0, 0, 0].getD r 0)
      ⟨56, 34, 12, 10, 12, by decide, by decide, by decide, by decide, by decide⟩ := by
    constructor <;> decide
  have hright := (clock_shown hshows ⟨0, 0, 0, 0, 0⟩ 0).2.1
  intro heq
  exact absurd (hright.mp heq) (by decide)

end AuroraOS
