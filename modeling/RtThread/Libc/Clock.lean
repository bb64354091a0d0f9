import Mathlib

/-!
# Absolute time-outs and the realtime clock

The model of `clock_time_to_tick` and of the realtime clock in `components/libc/time/clock_time.c`, with
1000 ticks in a second. `int` and `long` have 32 bits, and `NANOSECOND_PER_SECOND` is `unsigned long`, so
that the sums and quotients in which it takes part are unsigned. Every operation of the source is
followed by the conversion to the type of its result.

The nanoseconds of a time-out are multiplied by 1000 before the division, in `int`, and the product of a
difference from 4294968 nanoseconds on does not fit. The clock keeps the time of tick zero, and the
microseconds of that time and of the tick are added without a carry.
-/

namespace RtThread.Libc

/-- Ticks in a second. -/
def RT_TICK_PER_SECOND : ℤ := 1000
/-- Nanoseconds in a second. -/
def NANOSECOND_PER_SECOND : ℤ := 1000000000

/-- The conversion to `int`. -/
def toInt (x : ℤ) : ℤ := x.bmod (2 ^ 32)

/-- The conversion to `unsigned`. -/
def toUnsigned (x : ℤ) : ℤ := x % 2 ^ 32

/-- `struct timespec` with its nanoseconds below a second. -/
structure Timespec where
  sec : ℤ
  nsec : ℤ
  sec_mem : -2 ^ 31 ≤ sec ∧ sec < 2 ^ 31
  nsec_mem : 0 ≤ nsec ∧ nsec < NANOSECOND_PER_SECOND
  deriving DecidableEq

/-- The nanoseconds since the start of the epoch. -/
def Timespec.total (t : Timespec) : ℤ := t.sec * NANOSECOND_PER_SECOND + t.nsec

variable (tp time : Timespec)

/-- `second` and `nsecond` of `clock_time_to_tick`, where `tp` is the time of now. -/
def secondsApart : ℤ × ℤ :=
  if toInt (time.nsec - tp.nsec) < 0 then
    (toInt (toInt (time.sec - tp.sec) - 1),
      toInt (toUnsigned (NANOSECOND_PER_SECOND - toUnsigned (toInt (tp.nsec - time.nsec)))))
  else (toInt (time.sec - tp.sec), toInt (time.nsec - tp.nsec))

/-- `nsecond * RT_TICK_PER_SECOND / NANOSECOND_PER_SECOND`: a product of type `int`, and an unsigned
quotient. -/
def fraction (nsecond : ℤ) : ℤ :=
  toUnsigned (toInt (nsecond * RT_TICK_PER_SECOND)) / NANOSECOND_PER_SECOND

/-- `clock_time_to_tick`, where `tp` is what `clock_gettime` stores. -/
def clockTimeToTick : ℤ :=
  let (second, nsecond) := secondsApart tp time
  let tick := toInt (toUnsigned (toUnsigned (toInt (second * RT_TICK_PER_SECOND)) + fraction nsecond))
  if tick < 0 then 0 else tick

/-- The whole ticks until a time, none if it is not later than now. -/
def ticksUntil : ℤ :=
  if time.total ≤ tp.total then 0
  else (time.total - tp.total) * RT_TICK_PER_SECOND / NANOSECOND_PER_SECOND

theorem toInt_eq {x y : ℤ} (h : x % 2 ^ 32 = y % 2 ^ 32) (hy : -2 ^ 31 ≤ y ∧ y < 2 ^ 31) :
    toInt x = y := by
  unfold toInt Int.bmod
  norm_num at h ⊢
  split_ifs <;> omega

theorem toUnsigned_toInt (x : ℤ) : toUnsigned (toInt x) = toUnsigned x := Int.bmod_emod

theorem secondsApart_spec {tp time : Timespec} (hnear : |time.sec - tp.sec| ≤ 2000000) :
    (secondsApart tp time).1 * NANOSECOND_PER_SECOND + (secondsApart tp time).2 =
        time.total - tp.total ∧
      0 ≤ (secondsApart tp time).2 ∧ (secondsApart tp time).2 < NANOSECOND_PER_SECOND := by
  obtain ⟨hlow, hhigh⟩ := abs_le.mp hnear
  obtain ⟨htp, htp'⟩ := tp.nsec_mem
  obtain ⟨htime, htime'⟩ := time.nsec_mem
  unfold NANOSECOND_PER_SECOND at htp' htime'
  unfold secondsApart Timespec.total
  rw [toInt_eq (x := time.nsec - tp.nsec) rfl (by omega),
    toInt_eq (x := time.sec - tp.sec) rfl (by omega)]
  split_ifs with hborrow
  · -- The unsigned difference is the nanoseconds of a second without those that are missing.
    have hnsec : toInt (toUnsigned (NANOSECOND_PER_SECOND -
        toUnsigned (toInt (tp.nsec - time.nsec)))) =
        NANOSECOND_PER_SECOND - (tp.nsec - time.nsec) := by
      rw [toUnsigned_toInt]
      unfold toUnsigned NANOSECOND_PER_SECOND
      exact toInt_eq (by omega) (by omega)
    rw [hnsec, toInt_eq rfl (by omega)]
    unfold NANOSECOND_PER_SECOND
    omega
  · unfold NANOSECOND_PER_SECOND
    omega

/-- The quotient is the number of whole ticks exactly if the product is below `2 ^ 32`. -/
theorem fraction_eq_iff {nsecond : ℤ} (h : 0 ≤ nsecond) (h' : nsecond < NANOSECOND_PER_SECOND) :
    fraction nsecond = nsecond * RT_TICK_PER_SECOND / NANOSECOND_PER_SECOND ↔ nsecond ≤ 4294967 := by
  unfold fraction
  rw [toUnsigned_toInt]
  unfold toUnsigned RT_TICK_PER_SECOND NANOSECOND_PER_SECOND at *
  omega

theorem fraction_mem (nsecond : ℤ) : 0 ≤ fraction nsecond ∧ fraction nsecond ≤ 4 := by
  unfold fraction toUnsigned NANOSECOND_PER_SECOND
  omega

/-- For times less than 2000000 seconds apart, the result is the number of whole ticks between them
exactly if the time has passed, or the part of the difference below a second is at most 4294967
nanoseconds. -/
theorem clock_time_to_tick_exact
    (hnear : |time.total - tp.total| < 2000000 * NANOSECOND_PER_SECOND) :
    clockTimeToTick tp time = ticksUntil tp time ↔
      time.total ≤ tp.total ∨ (time.total - tp.total) % NANOSECOND_PER_SECOND ≤ 4294967 := by
  have hsec : |time.sec - tp.sec| ≤ 2000000 := by
    have htp := tp.nsec_mem
    have htime := time.nsec_mem
    unfold Timespec.total NANOSECOND_PER_SECOND at *
    rw [abs_lt] at hnear
    rw [abs_le]
    omega
  obtain ⟨happart, hnsec, hnsec'⟩ := secondsApart_spec hsec
  obtain ⟨hfraction, hfraction'⟩ := fraction_mem (secondsApart tp time).2
  have hexact := fraction_eq_iff hnsec hnsec'
  unfold clockTimeToTick ticksUntil
  dsimp only
  generalize (secondsApart tp time).1 = second at *
  generalize (secondsApart tp time).2 = nsecond at *
  rw [abs_lt] at hnear
  -- Neither the ticks of the seconds nor the sum wrap around.
  have hticks : toInt (toUnsigned (toUnsigned (toInt (second * RT_TICK_PER_SECOND)) +
      fraction nsecond)) = second * RT_TICK_PER_SECOND + fraction nsecond := by
    rw [toUnsigned_toInt]
    unfold toUnsigned RT_TICK_PER_SECOND NANOSECOND_PER_SECOND at *
    exact toInt_eq (by omega) (by omega)
  rw [hticks]
  unfold RT_TICK_PER_SECOND NANOSECOND_PER_SECOND at *
  split_ifs <;> omega

/-- The time zero. -/
def epochStart : Timespec := ⟨0, 0, by norm_num, by decide⟩

/-- Ten seconds and four milliseconds are 10004 ticks. -/
theorem clock_time_to_tick_exact_tenSeconds :
    clockTimeToTick epochStart ⟨10, 4000000, by norm_num, by decide⟩ =
      ticksUntil epochStart ⟨10, 4000000, by norm_num, by decide⟩ :=
  (clock_time_to_tick_exact _ _ (by decide)).mpr (Or.inr (by decide))

/-- Half a second is one tick instead of 500. -/
theorem half_second_is_one_tick :
    clockTimeToTick epochStart ⟨0, 500000000, by norm_num, by decide⟩ = 1 ∧
      ticksUntil epochStart ⟨0, 500000000, by norm_num, by decide⟩ = 500 := by
  decide

/-! ## The clock -/

/-- `_timevalue`, and the tick, an unsigned word. -/
structure Clock where
  sec : ℤ
  usec : ℤ
  tick : ℤ

/-- `clock_time_system_init`, where `time` is what the RTC stores, or zero. -/
def clockTimeSystemInit (time tick : ℤ) : Clock where
  sec := toInt (toUnsigned (time - tick / RT_TICK_PER_SECOND - 1))
  usec := tick % RT_TICK_PER_SECOND * 1000
  tick := tick

/-- What changes the clock: a call of `clock_settime`, and a tick. -/
inductive ClockAct
  | set (tp : Timespec)
  | tick
  deriving DecidableEq

namespace Clock

variable (c : Clock)

/-- `clock_gettime`: the seconds and the nanoseconds. The tick is taken as an `int`. -/
def gettime : ℤ × ℤ :=
  let tick := toInt c.tick
  (toInt (c.sec + tick.tdiv RT_TICK_PER_SECOND),
    toInt (toUnsigned ((c.usec + tick.tmod RT_TICK_PER_SECOND * 1000) * 1000)))

/-- One step: `clock_settime` stores the seconds without the tick, and a tick counts up. -/
def step : ClockAct → Clock
  | .set tp =>
    { c with
      usec := toInt (toUnsigned (1000000 - c.tick % RT_TICK_PER_SECOND * 1000))
      sec := toInt (toUnsigned (tp.sec - c.tick / RT_TICK_PER_SECOND - 1)) }
  | .tick => { c with tick := toUnsigned (c.tick + 1) }

/-- The nanoseconds of the time that is returned. -/
def total : ℤ := c.gettime.1 * NANOSECOND_PER_SECOND + c.gettime.2

/-- What is expected along a run: the times are normalised, the time after a call of `clock_settime`
has the seconds that were set, and a tick adds a millisecond. -/
def Right (c : Clock) : List ClockAct → Prop
  | [] => 0 ≤ c.gettime.2 ∧ c.gettime.2 < NANOSECOND_PER_SECOND
  | a :: acts => (0 ≤ c.gettime.2 ∧ c.gettime.2 < NANOSECOND_PER_SECOND) ∧
    (match a with
      | .set tp => (c.step a).gettime.1 = tp.sec
      | .tick => (c.step a).total = c.total + 1000000) ∧ (c.step a).Right acts

variable {c : Clock} (htick : 0 ≤ c.tick ∧ c.tick < 2 ^ 31)
include htick

/-- Below `2 ^ 31` the tick is the same number as an `int`. -/
theorem gettime_eq : c.gettime = (toInt (c.sec + c.tick / 1000),
    toInt (toUnsigned ((c.usec + c.tick % 1000 * 1000) * 1000))) := by
  have hint : toInt c.tick = c.tick := toInt_eq rfl ⟨by omega, htick.2⟩
  unfold gettime RT_TICK_PER_SECOND
  dsimp only
  rw [hint, Int.tdiv_eq_ediv_of_nonneg htick.1, Int.tmod_eq_emod_of_nonneg htick.1]

theorem gettime_set_ne (tp : Timespec) : (c.step (.set tp)).gettime.1 ≠ tp.sec := by
  intro hsec
  have hmod := congrArg toUnsigned hsec
  rw [gettime_eq (c := c.step (.set tp)) htick, toUnsigned_toInt] at hmod
  have hstored := toUnsigned_toInt (toUnsigned (tp.sec - c.tick / RT_TICK_PER_SECOND - 1))
  unfold step toUnsigned RT_TICK_PER_SECOND at *
  dsimp only at hmod
  omega

variable (husec : 0 ≤ c.usec ∧ c.usec < 1000000)
include husec

theorem gettime_snd : c.gettime.2 = (c.usec + c.tick % 1000 * 1000) * 1000 := by
  rw [gettime_eq htick]
  unfold toUnsigned
  exact toInt_eq (by omega) (by omega)

omit htick

/-- As long as the tick is below `2 ^ 31`, a clock whose seconds do not overflow is right along a run
exactly if it is not set, and neither the microseconds nor the seconds overflow at any tick. -/
theorem right_iff (hnonneg : 0 ≤ c.tick) (hsec : -2 ^ 31 ≤ c.sec + c.tick / 1000 ∧ c.sec + c.tick / 1000 < 2 ^ 31)
    {acts : List ClockAct} (hend : c.tick + acts.length < 2 ^ 31) : c.Right acts ↔ (∀ a ∈ acts, a = .tick) ∧ ∀ i : ℕ, i ≤ acts.length →
      c.usec + (c.tick + i) % 1000 * 1000 < 1000000 ∧ c.sec + (c.tick + i) / 1000 < 2 ^ 31 := by
  induction acts generalizing c with
  | nil =>
    have hrange : 0 ≤ c.tick ∧ c.tick < 2 ^ 31 := ⟨hnonneg, by simpa using hend⟩
    simp [Right, gettime_snd hrange husec, NANOSECOND_PER_SECOND]
    omega
  | cons a acts ih =>
    rw [List.length_cons, Nat.cast_succ] at hend
    have hrange : 0 ≤ c.tick ∧ c.tick < 2 ^ 31 := by omega
    cases a with
    | set tp => simp [Right, gettime_set_ne hrange]
    | tick =>
      have hnext : (c.step .tick).tick = c.tick + 1 := Int.emod_eq_of_lt (by omega) (by omega)
      have hrange' : 0 ≤ (c.step .tick).tick ∧ (c.step .tick).tick < 2 ^ 31 := by omega
      have hnow : c.gettime.1 = c.sec + c.tick / 1000 := by
        rw [gettime_eq hrange]
        exact toInt_eq rfl hsec
      have hlater : (c.step .tick).gettime.1 = toInt (c.sec + (c.tick + 1) / 1000) := by
        rw [gettime_eq hrange', hnext]
        rfl
      have hnsec := gettime_snd hrange husec
      have hnsec' : (c.step .tick).gettime.2 = (c.usec + (c.tick + 1) % 1000 * 1000) * 1000 := by
        rw [gettime_snd (c := c.step .tick) hrange' husec, hnext]
        rfl
      unfold Right NANOSECOND_PER_SECOND
      dsimp only
      by_cases hlast : c.sec + (c.tick + 1) / 1000 < 2 ^ 31
      · rw [toInt_eq rfl ⟨by omega, hlast⟩] at hlater
        have hgrows : (c.step .tick).total = c.total + 1000000 := by
          unfold total NANOSECOND_PER_SECOND
          omega
        have hshift : ∀ i : ℕ, c.tick + ((i + 1 : ℕ) : ℤ) = c.tick + 1 + i := fun i => by omega
        have hsec' : -2 ^ 31 ≤ (c.step .tick).sec + (c.step .tick).tick / 1000 ∧
            (c.step .tick).sec + (c.step .tick).tick / 1000 < 2 ^ 31 := by
          rw [hnext]
          change _ ≤ c.sec + (c.tick + 1) / 1000 ∧ c.sec + (c.tick + 1) / 1000 < _
          omega
        rw [ih (c := c.step .tick) husec hrange'.1 hsec' (by omega), hnext]
        constructor
        · rintro ⟨⟨-, hlt⟩, -, hall, hticks⟩
          refine ⟨by simpa using hall, fun i hi => ?_⟩
          cases i with
          | zero =>
            rw [Nat.cast_zero, add_zero]
            omega
          | succ i =>
            rw [hshift]
            exact hticks i (Nat.le_of_succ_le_succ hi)
        · rintro ⟨hall, hticks⟩
          have hfirst := hticks 0 (Nat.zero_le _)
          rw [Nat.cast_zero, add_zero] at hfirst
          refine ⟨by omega, hgrows, fun a ha => hall a (by simp [ha]), fun i hi => ?_⟩
          have := hticks (i + 1) (Nat.succ_le_succ hi)
          rwa [hshift] at this
      · -- The seconds wrap around with this tick.
        have hwrap : toInt (c.sec + (c.tick + 1) / 1000) = -2 ^ 31 :=
          toInt_eq (y := -2 ^ 31) (by omega) (by norm_num)
        rw [hwrap] at hlater
        constructor
        · rintro ⟨-, hgrows, -⟩
          unfold total NANOSECOND_PER_SECOND at hgrows
          omega
        · rintro ⟨-, hticks⟩
          exact absurd (hticks 1 (by simp)).2 hlast

end Clock

/-- From the initialisation on, as long as the tick is below `2 ^ 31`, the clock is right along a run
exactly if it is not set, and at every tick the part of a second that has passed, with the one at the
initialisation, is less than a second, and the seconds are a `time_t`. -/
theorem realtime_clock_iff (time tick : ℤ) (htime : 0 ≤ time ∧ time < 2 ^ 31)
    (htick : 0 ≤ tick) (acts : List ClockAct) (hend : tick + acts.length < 2 ^ 31) :
    (clockTimeSystemInit time tick).Right acts ↔ (∀ a ∈ acts, a = .tick) ∧ ∀ i : ℕ, i ≤ acts.length →
      tick % 1000 + (tick + i) % 1000 < 1000 ∧ time - 1 + ((tick + i) / 1000 - tick / 1000) < 2 ^ 31 := by
  have hsec : (clockTimeSystemInit time tick).sec = time - tick / 1000 - 1 :=
    toInt_eq (Int.emod_emod _ _) (by omega)
  have husec : (clockTimeSystemInit time tick).usec = tick % 1000 * 1000 := rfl
  have htick' : (clockTimeSystemInit time tick).tick = tick := rfl
  rw [Clock.right_iff (by omega) htick (by omega) hend, hsec, husec, htick']
  refine and_congr_right' (forall₂_congr fun i _ => ?_)
  omega

/-- A second without a call of `clock_settime`. -/
theorem realtime_clock_iff_second : (clockTimeSystemInit 7 3000).Right (.replicate 999 .tick) := by
  refine (realtime_clock_iff 7 3000 (by norm_num) (by norm_num) _ (by norm_num)).mpr ⟨fun a => List.eq_of_mem_replicate, ?_⟩
  intro i hi
  rw [List.length_replicate] at hi
  omega

/-- Five seconds are set, and the time is four seconds and a thousand million nanoseconds. -/
theorem set_second_is_not_returned : ((clockTimeSystemInit 0 0).step (.set ⟨5, 0, by norm_num, by decide⟩)).gettime =
    (4, 1000000000) := by
  decide

end RtThread.Libc
