import Mathlib.Algebra.BigOperators.Group.Finset.Basic
import Mathlib.Algebra.Order.Ring.Int
import Mathlib.Tactic.IntervalCases
import Mathlib.Tactic.Ring

/-!
# The clock

`kernel_mktime` of `kernel/mktime.c` and `get_current_time` of `init/init.c`, which calls it with
the year of the century in `tm_year` and the month from 0 on.

The test for a leap year is the wrong way round in its second half: of the years from 2000 to
2099 it takes only 2000 for one. So the days of a leap year from March on come out a day early,
but for 2000. And `year/4` rounds to 0 for 2000, where `year` is -1, so that 2000 comes out
a day late as a whole. The sum no longer fits an `int` from 2069-01-19 03:14:08 on. Hence two
times are as far apart as they should be exactly if both are before that moment and belong
to the same of these three groups (`Thunix.Kernel.faithful_iff`).
-/

namespace Thunix.Kernel

/-! ### The source -/

/-- `struct tm`. -/
structure Tm where
  tmSec : ℤ
  tmMin : ℤ
  tmHour : ℤ
  tmMday : ℤ
  tmMon : ℤ
  tmYear : ℤ

/-- `MINUTE`. -/
def MINUTE : ℤ := 60

/-- `HOUR`. -/
def HOUR : ℤ := 60 * MINUTE

/-- `DAY`. -/
def DAY : ℤ := 24 * HOUR

/-- `YEAR`. -/
def YEAR : ℤ := 365 * DAY

/-- The result of an `int` operation, unless it overflows. -/
def int32 (x : ℤ) : Option ℤ := if -2 ^ 31 ≤ x ∧ x < 2 ^ 31 then some x else none

/-- `month`. -/
def month : List ℤ :=
  [0, DAY * 31, DAY * (31 + 28), DAY * (31 + 28 + 31), DAY * (31 + 28 + 31 + 30),
    DAY * (31 + 28 + 31 + 30 + 31), DAY * (31 + 28 + 31 + 30 + 31 + 30),
    DAY * (31 + 28 + 31 + 30 + 31 + 30 + 31), DAY * (31 + 28 + 31 + 30 + 31 + 30 + 31 + 31),
    DAY * (31 + 28 + 31 + 30 + 31 + 30 + 31 + 31 + 30),
    DAY * (31 + 28 + 31 + 30 + 31 + 30 + 31 + 31 + 30 + 31),
    DAY * (31 + 28 + 31 + 30 + 31 + 30 + 31 + 31 + 30 + 31 + 30)]

/-- `leap`. -/
def leap (tmYear : ℤ) : ℤ :=
  if tmYear.tmod 4 ≠ 0 then 0 else if tmYear.tmod 100 ≠ 0 then 0 else 1

/-- `res += x`. -/
def plus (x : ℤ) (res : ℤ) : Option ℤ := do int32 (res + (← int32 x))

/-- `month[tm_mon]`. -/
def monthSecs (tmMon : ℤ) : Option ℤ := if 0 ≤ tmMon then month[tmMon.toNat]? else none

/-- `if (tm_mon > 1 && leap) res += DAY`. -/
def plusLeap (tm : Tm) (res : ℤ) : Option ℤ :=
  if tm.tmMon > 1 ∧ leap tm.tmYear ≠ 0 then plus DAY res else some res

/-- `kernel_mktime`: `none` when an `int` overflows, or the month is none. -/
def kernelMktime (tm : Tm) : Option ℤ := do
  let year ← int32 (tm.tmYear - 1)
  let res ← int32 (YEAR * year)
  let res ← plus (DAY * year.tdiv 4) res
  let secs ← monthSecs tm.tmMon
  let res ← plus secs res
  let res ← plusLeap tm res
  let res ← plus (DAY * (tm.tmMday - 1)) res
  let res ← plus (HOUR * tm.tmHour) res
  let res ← plus (MINUTE * tm.tmMin) res
  plus tm.tmSec res

/-- `BCD_TO_BIN`. -/
def bcdToBin (val : ℕ) : ℕ := (val &&& 0xF) + (val >>> 4) * 10

/-- The loop of `get_current_time`, for so many rounds at most: the registers of the clock, read
again until the second has not changed. `cmos n` is the clock at the `n`-th read. -/
def readClock (cmos : ℕ → ℕ → ℕ) : ℕ → ℕ → Option (ℕ → ℕ)
  | 0, _ => none
  | rounds + 1, n =>
    if cmos n 0 ≠ cmos (n + 6) 0 then readClock cmos rounds (n + 7)
    else some fun
      | 0 => cmos n 0
      | 2 => cmos (n + 1) 2
      | 4 => cmos (n + 2) 4
      | 7 => cmos (n + 3) 7
      | 8 => cmos (n + 4) 8
      | 9 => cmos (n + 5) 9
      | _ => 0

/-- `get_current_time`. -/
def getCurrentTime (cmos : ℕ → ℕ → ℕ) (rounds : ℕ) : Option ℤ := do
  let time ← readClock cmos rounds 0
  kernelMktime ⟨bcdToBin (time 0), bcdToBin (time 2), bcdToBin (time 4), bcdToBin (time 7),
    bcdToBin (time 8) - 1, bcdToBin (time 9)⟩

/-! ### The calendar -/

/-- A date and a time of day. -/
structure DateTime where
  year : ℕ
  month : ℕ
  day : ℕ
  hour : ℕ
  minute : ℕ
  second : ℕ

/-- A leap year of the Gregorian calendar. -/
def LeapYear (year : ℕ) : Prop := year % 4 = 0 ∧ (year % 100 ≠ 0 ∨ year % 400 = 0)

instance (year : ℕ) : Decidable (LeapYear year) := inferInstanceAs (Decidable (_ ∧ _))

/-- The days of a month. -/
def daysInMonth (year month : ℕ) : ℕ :=
  if month = 2 then if LeapYear year then 29 else 28
  else if month = 4 ∨ month = 6 ∨ month = 9 ∨ month = 11 then 30
  else 31

/-- The days before a month of a year. -/
def daysBefore (year month : ℕ) : ℕ := ∑ k ∈ Finset.range (month - 1), daysInMonth year (k + 1)

/-- The days from the beginning of 2000 to that of another year. -/
def daysSince2000 (year : ℕ) : ℕ := ∑ k ∈ Finset.range (year - 2000), daysBefore (2000 + k) 13

/-- A date of the calendar, from 2000 to 2099. -/
structure Valid (t : DateTime) : Prop where
  year : 2000 ≤ t.year ∧ t.year ≤ 2099
  month : 1 ≤ t.month ∧ t.month ≤ 12
  day : 1 ≤ t.day ∧ t.day ≤ daysInMonth t.year t.month
  time : t.hour < 24 ∧ t.minute < 60 ∧ t.second < 60

/-- **The seconds since the beginning of 2000.** -/
def seconds (t : DateTime) : ℕ :=
  (daysSince2000 t.year + daysBefore t.year t.month + (t.day - 1)) * 86400 +
    t.hour * 3600 + t.minute * 60 + t.second

/-- The time as `get_current_time` stores it for `kernel_mktime`. -/
def tmOf (t : DateTime) : Tm :=
  ⟨t.second, t.minute, t.hour, t.day, t.month - 1, (t.year : ℤ) - 2000⟩

/-- **The values of two times differ as the times do.** -/
def Faithful (a b : DateTime) : Prop :=
  ∃ x y, kernelMktime (tmOf a) = some x ∧ kernelMktime (tmOf b) = some y ∧
    x - y = (seconds a : ℤ) - seconds b

/-- The moment from which on an `int` is too small. -/
def overflowTime : DateTime := ⟨2069, 1, 19, 3, 14, 8⟩

/-- How a time is shifted: the days between the value of `kernel_mktime` and the beginning of
2000. -/
def shift (t : DateTime) : ℕ :=
  if t.year = 2000 then 365 else if LeapYear t.year ∧ 2 < t.month then 367 else 366

/-! ### The days -/

/-- The days before a month in a year that is no leap year. -/
def monthDays (m : ℕ) : ℕ :=
  [0, 0, 31, 59, 90, 120, 151, 181, 212, 243, 273, 304, 334, 365].getD m 0

theorem leapYear_iff {k : ℕ} (hk : k < 100) : LeapYear (2000 + k) ↔ k % 4 = 0 := by
  rw [LeapYear]
  omega

theorem daysBefore_succ {year m : ℕ} (hm : 1 ≤ m) :
    daysBefore year (m + 1) = daysBefore year m + daysInMonth year m := by
  obtain ⟨k, rfl⟩ := Nat.exists_eq_add_of_le' hm
  exact Finset.sum_range_succ _ _

theorem monthDays_succ {m : ℕ} (hm : 1 ≤ m) (hm' : m ≤ 12) :
    monthDays (m + 1) = monthDays m +
      if m = 2 then 28 else if m = 4 ∨ m = 6 ∨ m = 9 ∨ m = 11 then 30 else 31 := by
  interval_cases m <;> rfl

theorem daysBefore_eq {year m : ℕ} (hm : 1 ≤ m) (hm' : m ≤ 13) :
    daysBefore year m =
      monthDays m + if LeapYear year ∧ 2 < m then 1 else 0 := by
  induction m, hm using Nat.le_induction with
  | base =>
    rw [if_neg (by omega : ¬(LeapYear year ∧ 2 < 1))]
    rfl
  | succ m hm ih =>
    rw [daysBefore_succ hm, ih (by omega), monthDays_succ hm (by omega), daysInMonth]
    -- the day more is one of February
    rcases eq_or_ne m 2 with rfl | hne
    · rw [if_neg (by omega : ¬(LeapYear year ∧ 2 < 2)), if_pos rfl, if_pos rfl]
      by_cases hl : LeapYear year
      · rw [if_pos hl, if_pos ⟨hl, by decide⟩]
      · rw [if_neg hl, if_neg fun h => hl h.1]
    · have hlater : 2 < m + 1 ↔ 2 < m := by omega
      simp only [if_neg hne, hlater]
      omega

theorem daysSince2000_eq {k : ℕ} (hk : k ≤ 100) :
    daysSince2000 (2000 + k) = 365 * k + (k + 3) / 4 := by
  rw [daysSince2000, Nat.add_sub_cancel_left]
  induction k with
  | zero => rfl
  | succ k ih =>
    have hl := leapYear_iff (show k < 100 by omega)
    rw [Finset.sum_range_succ, ih (by omega), daysBefore_eq (by decide) (by decide)]
    by_cases h4 : k % 4 = 0
    · rw [if_pos ⟨hl.mpr h4, by decide⟩]
      show _ + (365 + 1) = _
      omega
    · rw [if_neg fun h => h4 (hl.mp h.1)]
      show _ + (365 + 0) = _
      omega

/-! ### Sums that may overflow -/

theorem int32_of_lt {x : ℤ} (h : -2 ^ 31 ≤ x) (h' : x < 2 ^ 31) : int32 x = some x := if_pos ⟨h, h'⟩

theorem int32_eq_some {x y : ℤ} : int32 x = some y ↔ -2 ^ 31 ≤ x ∧ x < 2 ^ 31 ∧ x = y := by
  rw [int32]
  split
  · simp_all
  · simp_all

theorem plus_eq {x : ℤ} (h0 : 0 ≤ x) (h : x < 2 ^ 31) (res : ℤ) :
    plus x res = int32 (res + x) := by
  rw [plus, int32_of_lt (by omega) h]
  rfl

/-- What is added does not bring an overflow back into range. -/
theorem bind_plus {x r : ℤ} (hr : -2 ^ 31 ≤ r) (h0 : 0 ≤ x) (h : x < 2 ^ 31)
    (f : ℤ → Option ℤ) :
    (int32 r).bind (fun res => (plus x res).bind f) = (int32 (r + x)).bind f := by
  by_cases hlt : r < 2 ^ 31
  · rw [int32_of_lt hr hlt, Option.bind_some, plus_eq h0 h]
  · rw [int32, if_neg fun hc => hlt hc.2, int32, if_neg fun hc => hlt (by omega)]
    rfl

/-! ### The value -/

theorem month_getElem? {m : ℕ} (hm : 1 ≤ m) (hm' : m ≤ 12) :
    month[((m : ℤ) - 1).toNat]? = some (DAY * monthDays m) := by
  interval_cases m <;> rfl

theorem monthDays_le {m : ℕ} (hm : m ≤ 12) : monthDays m ≤ 334 := by
  interval_cases m <;> decide

theorem daysInMonth_le (year m : ℕ) : daysInMonth year m ≤ 31 := by
  rw [daysInMonth]
  split_ifs <;> omega

/-- Only 2000 is taken for a leap year. -/
theorem leap_ne_zero_iff {k : ℕ} (hk : k < 100) : leap k ≠ 0 ↔ k = 0 := by
  have h4 : (k : ℤ).tmod 4 = k % 4 := Int.tmod_eq_emod_of_nonneg (by omega)
  have h100 : (k : ℤ).tmod 100 = k % 100 := Int.tmod_eq_emod_of_nonneg (by omega)
  rw [leap, h4, h100]
  split_ifs <;> omega

/-- `kernel_mktime` as a sum: `lag` is what the leap year adds. -/
theorem kernelMktime_eq {tm : Tm} {k days lag : ℤ} (hyear : tm.tmYear = k) (hk : 0 ≤ k ∧ k < 100)
    (hdays : monthSecs tm.tmMon = some (DAY * days)) (hrange : 0 ≤ days ∧ days < 366)
    (hlag : lag = if tm.tmMon > 1 ∧ leap tm.tmYear ≠ 0 then 1 else 0)
    (hmday : 1 ≤ tm.tmMday ∧ tm.tmMday ≤ 31) (hhour : 0 ≤ tm.tmHour ∧ tm.tmHour < 24)
    (hmin : 0 ≤ tm.tmMin ∧ tm.tmMin < 60) (hsec : 0 ≤ tm.tmSec ∧ tm.tmSec < 60) :
    kernelMktime tm = int32 (YEAR * (k - 1) + DAY * (k - 1).tdiv 4 + DAY * days + DAY * lag +
      DAY * (tm.tmMday - 1) + HOUR * tm.tmHour + MINUTE * tm.tmMin + tm.tmSec) := by
  have hquot : 0 ≤ (k - 1).tdiv 4 ∧ (k - 1).tdiv 4 < 25 := by
    rcases eq_or_ne k 0 with rfl | hne
    · decide
    · rw [Int.tdiv_eq_ediv_of_nonneg (by omega)]
      omega
  have hleap : ∀ (r : ℤ) (f : ℤ → Option ℤ), -2 ^ 31 ≤ r →
      (int32 r).bind (fun res => (plusLeap tm res).bind f) = (int32 (r + DAY * lag)).bind f := by
    intro r f hr
    by_cases hc : tm.tmMon > 1 ∧ leap tm.tmYear ≠ 0
    · simp only [plusLeap, if_pos hc]
      rw [bind_plus hr (by decide) (by decide), hlag, if_pos hc, Int.mul_one]
    · simp only [plusLeap, if_neg hc, Option.bind_some]
      rw [hlag, if_neg hc, Int.mul_zero, Int.add_zero]
  have hlast : ∀ r : ℤ, -2 ^ 31 ≤ r → (int32 r).bind (plus tm.tmSec) = int32 (r + tm.tmSec) := by
    intro r hr
    have hb := bind_plus hr hsec.1 (by omega) some
    simp only [Option.bind_fun_some] at hb
    exact hb
  have hlag01 : 0 ≤ lag ∧ lag ≤ 1 := by
    rw [hlag]
    split <;> decide
  have hday : DAY = 86400 := rfl
  have hhour' : HOUR = 3600 := rfl
  have hmin' : MINUTE = 60 := rfl
  have hyear' : YEAR = 31536000 := rfl
  rw [kernelMktime, hdays, hyear]
  simp only [Option.bind_eq_bind, Option.bind_some]
  rw [int32_of_lt (by omega) (by omega), Option.bind_some, bind_plus, bind_plus, hleap, bind_plus,
    bind_plus, bind_plus, hlast]
  all_goals
    simp only [hday, hhour', hmin', hyear']
    omega

/-- The seconds of a time, written out. -/
theorem seconds_eq {t : DateTime} (h : Valid t) {k : ℕ} (hk : t.year = 2000 + k) :
    seconds t = (365 * k + (k + 3) / 4 + (monthDays t.month +
      if k % 4 = 0 ∧ 2 < t.month then 1 else 0) + (t.day - 1)) * 86400 +
        t.hour * 3600 + t.minute * 60 + t.second := by
  have hyear := h.year
  have hmonth := h.month
  have hl := leapYear_iff (show k < 100 by omega)
  rw [seconds, hk, daysSince2000_eq (by omega), daysBefore_eq hmonth.1 (by omega)]
  simp only [hl]

theorem shift_eq {t : DateTime} (h : Valid t) {k : ℕ} (hk : t.year = 2000 + k) :
    shift t = if k = 0 then 365 else if k % 4 = 0 ∧ 2 < t.month then 367 else 366 := by
  have hyear := h.year
  have hl := leapYear_iff (show k < 100 by omega)
  have h0 : 2000 + k = 2000 ↔ k = 0 := by omega
  rw [shift]
  simp only [hk, h0, hl]

/-- **The value of a time**, if it fits: the seconds from some day on. -/
theorem kernelMktime_tmOf {t : DateTime} (h : Valid t) :
    kernelMktime (tmOf t) = int32 ((seconds t : ℤ) - shift t * 86400) := by
  obtain ⟨k, hk⟩ := Nat.exists_eq_add_of_le h.year.1
  have hyear := h.year
  have hmonth := h.month
  have hday := h.day
  have htime := h.time
  have hdim := daysInMonth_le t.year t.month
  have hmd := monthDays_le hmonth.2
  have hleap := leap_ne_zero_iff (show k < 100 by omega)
  have htm : (tmOf t).tmYear = k := by
    show (t.year : ℤ) - 2000 = k
    omega
  have hsecs : monthSecs (tmOf t).tmMon = some (DAY * monthDays t.month) := by
    show monthSecs ((t.month : ℤ) - 1) = _
    rw [monthSecs, if_pos (by omega), month_getElem? hmonth.1 hmonth.2]
  have hlag : (tmOf t).tmMon > 1 ∧ leap (tmOf t).tmYear ≠ 0 ↔ k = 0 ∧ 2 < t.month := by
    rw [htm, hleap]
    show (t.month : ℤ) - 1 > 1 ∧ k = 0 ↔ _
    omega
  have hquot : ((k : ℤ) - 1).tdiv 4 = if k = 0 then 0 else ((k : ℤ) - 1) / 4 := by
    rcases eq_or_ne k 0 with rfl | hne
    · rfl
    · rw [if_neg hne, Int.tdiv_eq_ediv_of_nonneg (by omega)]
  have htmday : 1 ≤ (tmOf t).tmMday ∧ (tmOf t).tmMday ≤ 31 :=
    show 1 ≤ (t.day : ℤ) ∧ (t.day : ℤ) ≤ 31 by omega
  have htmhour : 0 ≤ (tmOf t).tmHour ∧ (tmOf t).tmHour < 24 :=
    show 0 ≤ (t.hour : ℤ) ∧ (t.hour : ℤ) < 24 by omega
  have htmmin : 0 ≤ (tmOf t).tmMin ∧ (tmOf t).tmMin < 60 :=
    show 0 ≤ (t.minute : ℤ) ∧ (t.minute : ℤ) < 60 by omega
  have htmsec : 0 ≤ (tmOf t).tmSec ∧ (tmOf t).tmSec < 60 :=
    show 0 ≤ (t.second : ℤ) ∧ (t.second : ℤ) < 60 by omega
  rw [kernelMktime_eq htm (by omega) hsecs (by omega) rfl htmday htmhour htmmin htmsec,
    seconds_eq h hk, shift_eq h hk, hquot]
  simp only [hlag]
  congr 1
  show 31536000 * ((k : ℤ) - 1) + 86400 * _ + 86400 * _ + 86400 * _ + 86400 * ((t.day : ℤ) - 1) +
    3600 * (t.hour : ℤ) + 60 * (t.minute : ℤ) + (t.second : ℤ) = _
  split_ifs <;> omega

/-! ### Which times are faithful -/

theorem seconds_overflowTime : seconds overflowTime = 2 ^ 31 + 366 * 86400 := by
  have hv : Valid overflowTime := by
    refine ⟨by decide, by decide, by decide, by decide⟩
  rw [seconds_eq hv (k := 69) rfl]
  rfl

/-- A value fits exactly before some moment in 2069. -/
theorem fits_iff {t : DateTime} (h : Valid t) :
    -2 ^ 31 ≤ (seconds t : ℤ) - shift t * 86400 ∧ (seconds t : ℤ) - shift t * 86400 < 2 ^ 31 ↔
      seconds t < seconds overflowTime := by
  obtain ⟨k, hk⟩ := Nat.exists_eq_add_of_le h.year.1
  have hyear := h.year
  have hday := h.day
  have htime := h.time
  have hdim := daysInMonth_le t.year t.month
  have hmd := monthDays_le h.month.2
  rw [seconds_overflowTime, seconds_eq h hk, shift_eq h hk]
  split_ifs <;> omega

/-- **Two times are as far apart as they should be** exactly if both are early enough and they
are shifted by as much. -/
theorem faithful_iff {a b : DateTime} (ha : Valid a) (hb : Valid b) :
    Faithful a b ↔ seconds a < seconds overflowTime ∧ seconds b < seconds overflowTime ∧
      shift a = shift b := by
  rw [Faithful, kernelMktime_tmOf ha, kernelMktime_tmOf hb, ← fits_iff ha, ← fits_iff hb]
  constructor
  · rintro ⟨x, y, hx, hy, hxy⟩
    rw [int32_eq_some] at hx hy
    obtain ⟨hx0, hx1, rfl⟩ := hx
    obtain ⟨hy0, hy1, rfl⟩ := hy
    exact ⟨⟨hx0, hx1⟩, ⟨hy0, hy1⟩, by omega⟩
  · rintro ⟨⟨hx0, hx1⟩, ⟨hy0, hy1⟩, hshift⟩
    refine ⟨_, _, int32_of_lt hx0 hx1, int32_of_lt hy0 hy1, ?_⟩
    rw [hshift]
    omega

/-- Two days of the summer of 2024. -/
theorem faithful_summer : Faithful ⟨2024, 8, 1, 0, 0, 0⟩ ⟨2024, 7, 1, 12, 30, 15⟩ := by
  refine (faithful_iff ⟨?_, ?_, ?_, ?_⟩ ⟨?_, ?_, ?_, ?_⟩).mpr ⟨?_, ?_, ?_⟩ <;> decide +kernel

/-- The last day of 2000 and the first of 2001 have the same value. -/
theorem not_faithful : ¬∀ a b, Valid a → Valid b → Faithful a b := by
  intro h
  obtain ⟨x, y, hx, hy, hxy⟩ := h ⟨2000, 12, 31, 0, 0, 0⟩ ⟨2001, 1, 1, 0, 0, 0⟩
    ⟨by decide, by decide, by decide, by decide⟩ ⟨by decide, by decide, by decide, by decide⟩
  have hx0 : kernelMktime (tmOf ⟨2000, 12, 31, 0, 0, 0⟩) = some 0 := by decide +kernel
  have hy0 : kernelMktime (tmOf ⟨2001, 1, 1, 0, 0, 0⟩) = some 0 := by decide +kernel
  obtain rfl : 0 = x := Option.some.inj (hx0.symm.trans hx)
  obtain rfl : 0 = y := Option.some.inj (hy0.symm.trans hy)
  exact absurd hxy (by decide +kernel)

/-! ### The clock registers -/

/-- A number of two digits in a register of the clock. -/
def bcd (n : ℕ) : ℕ := n / 10 * 16 + n % 10

theorem bcdToBin_bcd {n : ℕ} (hn : n < 100) : bcdToBin (bcd n) = n := by
  have hall : ∀ m < 100, bcdToBin (bcd m) = m := by decide +kernel
  exact hall n hn

/-- The registers show a time. -/
structure Shows (regs : ℕ → ℕ) (t : DateTime) : Prop where
  sec : regs 0 = bcd t.second
  min : regs 2 = bcd t.minute
  hour : regs 4 = bcd t.hour
  mday : regs 7 = bcd t.day
  mon : regs 8 = bcd t.month
  year : regs 9 = bcd (t.year % 100)

/-- **What `get_current_time` hands over**, while the clock shows one time. -/
theorem getCurrentTime_eq {t : DateTime} (h : Valid t) {cmos : ℕ → ℕ → ℕ}
    (hshows : ∀ n, Shows (cmos n) t) (rounds : ℕ) :
    getCurrentTime cmos (rounds + 1) = kernelMktime (tmOf t) := by
  have hyear := h.year
  have hmonth := h.month
  have hday := h.day
  have htime := h.time
  have hdim := daysInMonth_le t.year t.month
  have hsame : ¬cmos 0 0 ≠ cmos (0 + 6) 0 := by
    rw [(hshows 0).sec, (hshows _).sec]
    exact fun hne => hne rfl
  have htm : (⟨bcdToBin (cmos 0 0), bcdToBin (cmos 1 2), bcdToBin (cmos 2 4), bcdToBin (cmos 3 7),
      bcdToBin (cmos 4 8) - 1, bcdToBin (cmos 5 9)⟩ : Tm) = tmOf t := by
    rw [(hshows 0).sec, (hshows 1).min, (hshows 2).hour, (hshows 3).mday, (hshows 4).mon,
      (hshows 5).year, bcdToBin_bcd (by omega), bcdToBin_bcd (by omega), bcdToBin_bcd (by omega),
      bcdToBin_bcd (by omega), bcdToBin_bcd (by omega), bcdToBin_bcd (by omega), tmOf]
    congr 1
    omega
  rw [getCurrentTime, readClock, if_neg hsame, ← htm]
  rfl

end Thunix.Kernel
