import Mathlib.Algebra.BigOperators.Intervals
import Mathlib.Algebra.Order.BigOperators.Group.Finset
import Mathlib.Tactic.NormNum

/-!
# Calendar time

`gmtime_r` and `mktime` of `components/libc/compilers/minilibc/time.c`, for fields that are not
negative. `dayNumber` is the meaning of a date: the days of the years, of the months and of the month
before it, counted from 1 January 1970. Within a year all depends on the day and on whether the year is
a leap year only, so that the kernel checks all days.
-/

namespace RtThread.Libc

open Finset

/-- `__spm`: the days before each month. -/
def spm : List ℕ := [0, 31, 59, 90, 120, 151, 181, 212, 243, 273, 304, 334, 365]

/-- `__isleap`. -/
def isleap (year : ℕ) : Bool := year % 4 = 0 && (year % 100 ≠ 0 || year % 400 = 0)

/-- `struct tm`. -/
structure Tm where
  (sec min hour mday mon year wday yday : ℕ)

/-- The loop of `gmtime_r` over the years. -/
def yearLoop (i work : ℕ) : ℕ × ℕ :=
  let k := bif isleap i then 366 else 365
  if k ≤ work then yearLoop (i + 1) (work - k) else (i, work)
  termination_by work
  decreasing_by
    have : 0 < bif isleap i then 366 else 365 := by cases isleap i <;> decide
    omega

/-- The loop of `gmtime_r` over the months, downwards. -/
def monthLoop (work : ℕ) : ℕ → ℕ
  | 0 => 0
  | i + 1 => if work < spm.getD (i + 1) 0 then monthLoop work i else i + 1

/-- `tm_mon` and `tm_mday`, from the day of the year. -/
def dateOf (leap : Bool) (work : ℕ) : ℕ × ℕ :=
  let late := leap && 58 < work
  let mday := if late && work = 59 then 2 else 1
  let work := if late then work - 1 else work
  let i := monthLoop work 11
  (i, mday + work - spm.getD i 0)

/-- `gmtime_r`. -/
def gmtimeR (timep : ℕ) : Tm :=
  let work := timep % 86400
  let (i, yday) := yearLoop 1970 (timep / 86400)
  let (mon, mday) := dateOf (isleap i) yday
  ⟨work % 60, work / 60 % 60, work / 60 / 60, mday, mon, i - 1900, (4 + timep / 86400) % 7, yday⟩

/-- The loop of `mktime` over the days of the month. -/
def mdayLoop : ℕ → Tm → Option Tm
  | 0, _ => none
  | fuel + 1, t =>
    if spm.getD (1 + t.mon) 0 < t.mday then
      let mday := if t.mon = 1 ∧ isleap (t.year + 1900) then t.mday - 1 else t.mday
      let t := { t with mday := mday - spm.getD t.mon 0, mon := t.mon + 1 }
      mdayLoop fuel (if 11 < t.mon then { t with mon := 0, year := t.year + 1 } else t)
    else some t

/-- `mktime`, with the loops that bring the fields into range. -/
def mktime (fuel : ℕ) (t : Tm) : Option ℤ := do
  let years : ℤ := t.year - 70
  let t := if 60 < t.sec then { t with min := t.min + t.sec / 60, sec := t.sec % 60 } else t
  let t := if 60 < t.min then { t with hour := t.hour + t.min / 60, min := t.min % 60 } else t
  let t := if 24 < t.hour then { t with mday := t.mday + t.hour / 24, hour := t.hour % 24 } else t
  let t := if 12 < t.mon then { t with year := t.year + t.mon / 12, mon := t.mon % 12 } else t
  let t ← mdayLoop fuel t
  if t.year < 70 then return -1
  let day := years * 365 + (years + 1).tdiv 4
  let day := if 131 ≤ years then
      let years := (years - 131) / 100
      day - (years / 4 * 3 + 1) - if years % 4 = 3 then 2 else years % 4
    else day
  let day := day + (spm.getD t.mon 0 + t.mday - 1 + if isleap (t.year + 1900) ∧ 1 < t.mon then 1 else 0)
  return ((day * 24 + t.hour) * 60 + t.min) * 60 + t.sec

/-- The days of a month. -/
def monthDays (leap : Bool) (mon : ℕ) : ℕ :=
  [31, if leap then 29 else 28, 31, 30, 31, 30, 31, 31, 30, 31, 30, 31].getD mon 0

/-- The leap years of the calendar. -/
def leapYear (year : ℕ) : Bool := 4 ∣ year ∧ (100 ∣ year → 400 ∣ year)

/-- The days of a year. -/
def yearDays (year : ℕ) : ℕ := ∑ mon ∈ range 12, monthDays (leapYear year) mon

/-- The days from 1 January 1970 to a date. -/
def dayNumber (year mon mday : ℕ) : ℕ :=
  ∑ y ∈ Ico 1970 year, yearDays y + ∑ m ∈ range mon, monthDays (leapYear year) m + (mday - 1)

theorem isleap_eq (year : ℕ) : isleap year = leapYear year := by
  unfold isleap leapYear
  rw [Bool.eq_iff_iff]
  simp only [Bool.and_eq_true, Bool.or_eq_true, decide_eq_true_eq, Nat.dvd_iff_mod_eq_zero]
  tauto

theorem yearDays_eq (year : ℕ) : yearDays year = bif isleap year then 366 else 365 := by
  rw [isleap_eq, yearDays]
  cases leapYear year <;> rfl

theorem yearLoop_spec {i work year yday : ℕ} (h : yearLoop i work = (year, yday)) :
    i ≤ year ∧ yday < yearDays year ∧ ∑ y ∈ Ico i year, yearDays y + yday = work := by
  fun_induction yearLoop i work with
  | case1 i work k hle ih =>
    obtain ⟨hi, hyday, hsum⟩ := ih h
    rw [sum_eq_sum_Ico_succ_bot (by omega), yearDays_eq i]
    exact ⟨by omega, hyday, by omega⟩
  | case2 i work k hlt =>
    obtain ⟨rfl, rfl⟩ := h
    rw [yearDays_eq, Ico_self]
    exact ⟨le_rfl, by omega, Nat.zero_add _⟩

/-- The date of each day of a year, and the day of the year of that date as `mktime` computes it. -/
theorem dateOf_spec : ∀ leap, ∀ yday < bif leap then 366 else 365,
    (dateOf leap yday).1 < 12 ∧ 1 ≤ (dateOf leap yday).2 ∧ (dateOf leap yday).2 ≤ monthDays leap (dateOf leap yday).1 ∧
      (dateOf leap yday).2 ≤ spm.getD (1 + (dateOf leap yday).1) 0 ∧
      ∑ m ∈ range (dateOf leap yday).1, monthDays leap m + ((dateOf leap yday).2 - 1) = yday ∧
      spm.getD (dateOf leap yday).1 0 + (dateOf leap yday).2 - 1 +
        (if leap ∧ 1 < (dateOf leap yday).1 then 1 else 0) = yday := by
  decide +kernel

/-- `gmtime_r` gives the date of a time, with the time of day, the day of the year and the day of the
week, where 1 January 1970 was a Thursday, and `mktime` gives the time back. -/
theorem calendar_conversion (t : ℕ) (ht : t < 2 ^ 31) : ∃ sec min hour mday mon year wday yday,
    gmtimeR t = ⟨sec, min, hour, mday, mon, year, wday, yday⟩ ∧
      (mon < 12 ∧ 1 ≤ mday ∧ mday ≤ monthDays (leapYear (year + 1900)) mon ∧
        dayNumber (year + 1900) mon mday = t / 86400) ∧
      (hour < 24 ∧ min < 60 ∧ sec < 60 ∧ hour * 3600 + min * 60 + sec = t % 86400) ∧
      dayNumber (year + 1900) 0 1 + yday = t / 86400 ∧ wday = (t / 86400 + 4) % 7 ∧
      ∀ fuel, mktime (fuel + 1) (gmtimeR t) = some (t : ℤ) := by
  rcases hyear : yearLoop 1970 (t / 86400) with ⟨year, yday⟩
  rcases hdate : dateOf (isleap year) yday with ⟨mon, mday⟩
  obtain ⟨hstart, hyday, hsum⟩ := yearLoop_spec hyear
  rw [yearDays_eq] at hyday
  have hspec := dateOf_spec _ _ hyday
  rw [hdate] at hspec
  dsimp only at hspec
  obtain ⟨hmon, hmday, hmday', hloop, hmonths, hday⟩ := hspec
  -- The years until 2038.
  have hyears : year - 1970 < 69 := by
    have hle := card_nsmul_le_sum (Ico 1970 year) (fun y => yearDays y) 365 fun y _ => by
      rw [yearDays_eq]
      cases isleap y <;> decide
    rw [Nat.card_Ico, nsmul_eq_mul, Nat.cast_id] at hle
    omega
  have hdays : ∀ n < 69, ∑ y ∈ Ico 1970 (1970 + n), yearDays y = n * 365 + (n + 1) / 4 := by decide +kernel
  have hdays := hdays _ hyears
  have hgmtime : gmtimeR t = ⟨t % 86400 % 60, t % 86400 / 60 % 60, t % 86400 / 60 / 60, mday, mon, year - 1900,
      (4 + t / 86400) % 7, yday⟩ := by
    rw [gmtimeR, hyear]
    dsimp only
    rw [hdate]
  have hback : year - 1900 + 1900 = year := by omega
  refine ⟨_, _, _, _, _, _, _, _, hgmtime, ?_⟩
  rw [hgmtime, hback, ← isleap_eq]
  unfold dayNumber
  refine ⟨⟨hmon, hmday, hmday', ?_⟩, by omega, ?_, by omega, fun fuel => ?_⟩
  · rw [← isleap_eq]
    omega
  · rw [range_zero, sum_empty]
    omega
  · have hsec : ¬60 < t % 86400 % 60 := by omega
    have hmin : ¬60 < t % 86400 / 60 % 60 := by omega
    have hhour : ¬24 < t % 86400 / 60 / 60 := by omega
    have hepoch : ¬year - 1900 < 70 := by omega
    have hcentury : ¬(131 : ℤ) ≤ ((year - 1900 : ℕ) : ℤ) - 70 := by omega
    simp only [mktime, mdayLoop, hsec, hmin, hhour, hmon.le.not_gt, hloop.not_gt, hepoch, hcentury, hback,
      Option.bind_eq_bind, Option.bind_some, Option.pure_def, if_false, Option.some.injEq]
    rw [Int.tdiv_eq_ediv_of_nonneg (by omega)]
    rw [Nat.add_sub_cancel' hstart] at hdays
    split_ifs at hday ⊢ <;> omega

/-- 29 February 2036. -/
theorem calendar_conversion_leapDay : 2087856000 < 2 ^ 31 ∧
    ∀ fuel, mktime (fuel + 1) (gmtimeR 2087856000) = some 2087856000 := by
  obtain ⟨_, _, _, _, _, _, _, _, -, -, -, -, -, hback⟩ := calendar_conversion 2087856000 (by norm_num)
  exact ⟨by norm_num, hback⟩

end RtThread.Libc
