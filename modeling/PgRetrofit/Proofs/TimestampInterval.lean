import PgRetrofit.Lib.Result
import PgRetrofit.Proofs.Timestamp

/-! `timestamp_pl_interval` adds months in the calendar, then days, then microseconds. Two of its
sums are not checked for wrapping around. Nor are the sums of `interval_justify_hours` and its kin.
-/

namespace Pg.Timestamp

open Gregorian Date Int Result

theorem isleap_iff (y : ℤ) : isleap y = true ↔ IsLeap y := by
  have h4 := dvd_iff_tmod_eq_zero (a := 4) (b := y)
  have h100 := dvd_iff_tmod_eq_zero (a := 100) (b := y)
  have h400 := dvd_iff_tmod_eq_zero (a := 400) (b := y)
  rw [isleap, decide_eq_true_iff, IsLeap, ← h4, Ne, ← h100, ← h400, dvd_iff_emod_eq_zero,
    dvd_iff_emod_eq_zero, dvd_iff_emod_eq_zero]

theorem dayTab_eq (y : ℤ) {m : ℤ} (hm : 1 ≤ m ∧ m ≤ 12) :
    (dayTab (isleap y)).getD (m - 1).toNat 0 = daysInMonth y m := by
  have hleap := isleap_iff y
  obtain ⟨hlow, hhigh⟩ := hm
  cases h : isleap y <;> rw [h] at hleap <;> simp at hleap <;> interval_cases m <;>
    simp [dayTab, daysInMonth, hleap]

theorem month_floor (y mon : ℤ) :
    (if mon > monthsPerYear then (y + (mon - 1).tdiv monthsPerYear, (mon - 1).tmod monthsPerYear + 1)
      else if mon < 1 then (y + (mon.tdiv monthsPerYear - 1), mon.tmod monthsPerYear + monthsPerYear)
        else (y, mon)) = (y + (mon - 1) / 12, (mon - 1) % 12 + 1) := by
  have hcases := tdiv_cases mon monthsPerYear
  have hbefore := tdiv_cases (mon - 1) monthsPerYear
  rw [tmod_def, tmod_def]
  unfold monthsPerYear at *
  split_ifs <;> rw [Prod.mk.injEq] <;> omega

theorem addMonth_eq (month : ℤ) (date : Date) :
    addMonth month date = (Date.mk date.year 1 date.day).addMonths
      (toInt32 (date.month + month) - 1) := by
  have hfloor := month_floor date.year (toInt32 (date.month + month))
  unfold addMonth addMonths
  dsimp only
  rw [hfloor]
  generalize toInt32 (date.month + month) = mon
  dsimp only
  rw [dayTab_eq _ (by omega),
    show date.year * 12 + (1 - 1) + (mon - 1) = mon - 1 + date.year * 12 by omega,
    add_mul_ediv_right _ _ (by decide), add_mul_emod_self_right, add_comm date.year]
  congr 1
  split_ifs <;> omega

variable {date : Date}

/-- The months are added in the calendar, or the sum wraps, the year is too small and the exact one
too large. -/
theorem addMonth_cases (hvalid : date.Valid) (hj : IsValidJulian date.year date.month) {month : ℤ}
    (hmonth : IsInt32 month) :
    addMonth month date = date.addMonths month ∨
      ¬ IsValidJulian (addMonth month date).year (addMonth month date).month ∧
      ¬ IsValidJulian (date.addMonths month).year (date.addMonths month).month := by
  have hm := hvalid.month
  rw [addMonth_eq]
  unfold addMonths
  dsimp only
  by_cases hfits : date.month + month ≤ 2147483647
  · left
    rw [toInt32_of (by omega),
      show date.year * 12 + (1 - 1) + (date.month + month - 1) =
        date.year * 12 + (date.month - 1) + month by omega]
  · unfold IsValidJulian julianMinyear julianMaxyear at *
    unfold toInt32
    omega

variable {t day : ℤ}

theorem isValidJulian_of_micros (h : date.InRange)
    (ht : IsValidTimestamp (micros date (t % 86400000000))) :
    IsValidJulian date.year date.month := by
  rw [micros_eq] at ht
  unfold IsValidTimestamp minTimestamp endTimestamp at ht
  exact isValidJulian_of h (by omega)

/-- a step from one timestamp to another that the range checks accept -/
def Passes (t t' : ℤ) : Prop := 0 ≤ t / 86400000000 + 2451545 ∧ IsValidTimestamp t'

/-- The date changes as given, or to one that is refused as the given one is. -/
theorem changeDate_cases {change : Date → Date} (ht : IsInt64 t) (hrange : date.InRange)
    (hchange : 0 ≤ t / 86400000000 + 2451545 → change (dateOf t) = date ∨
      ¬ IsValidJulian (change (dateOf t)).year (change (dateOf t)).month ∧
      ¬ IsValidJulian date.year date.month) :
    (Passes t (micros date (t % 86400000000)) →
      changeDate change t = .ok (micros date (t % 86400000000))) ∧
      (¬ Passes t (micros date (t % 86400000000)) → changeDate change t = .error outOfRange) := by
  unfold changeDate Passes
  rcases timestamp2tm_cases ht with ⟨hneg, hnone⟩ | ⟨hnonneg, tm, fsec, htm, hdate, htime, hday⟩
  · rw [hnone]
    exact ⟨fun h => absurd h.1 (by omega), fun _ => rfl⟩
  rw [htm, and_iff_right hnonneg]
  dsimp only
  rw [hdate]
  by_cases hj : IsValidJulian (change (dateOf t)).year (change (dateOf t)).month
  · rcases hchange hnonneg with heq | hnot
    swap
    · exact absurd hj hnot.1
    rw [heq] at hj ⊢
    have hexact : tm2timestamp (tm.setDate date) fsec none =
        if IsValidTimestamp (micros date (timeOfDay tm fsec) + 0 * 1000000) then
          some (micros date (timeOfDay tm fsec) + 0 * 1000000) else none :=
      tm2timestamp_eq (tm.setDate date) hrange hj { htime with } none fun _ htz => nomatch htz
    rw [hexact, hday, zero_mul, add_zero]
    refine ⟨fun hin => ?_, fun hout => ?_⟩
    · rw [if_pos hin]
    · rw [if_neg hout]
  · have hnone : tm2timestamp (tm.setDate (change (dateOf t))) fsec none = none := if_pos hj
    rw [hnone]
    refine ⟨fun hin => ?_, fun _ => rfl⟩
    rcases hchange hnonneg with heq | hnot
    · exact absurd (isValidJulian_of_micros hrange hin) (heq ▸ hj)
    · exact absurd (isValidJulian_of_micros hrange hin) hnot.2

/-- The day of a date in range that the Julian day stands for, off by what `j2date` misses. -/
theorem addDay_cases (ht : IsInt64 t) (hnonneg : 0 ≤ t / 86400000000 + 2451545) (hday : IsInt32 day) :
    ∃ date : Date, date.InRange ∧
      date.number = t / 86400000000 + 730120 + day + missedDays (t / 86400000000 + 2451545 + day) ∧
      (addDay day (dateOf t) = date ∨
        ¬ IsValidJulian (addDay day (dateOf t)).year (addDay day (dateOf t)).month ∧
        ¬ IsValidJulian date.year date.month) := by
  obtain ⟨hvalid, hnumber⟩ := dateOf_spec t
  have hjulian : date2j (dateOf t).year (dateOf t).month (dateOf t).day = t / 86400000000 + 2451545 := by
    rw [date2j_eq hvalid.inRange (isValidJulian_of hvalid.inRange (by omega))]
    omega
  have hmax : t / 86400000000 ≤ 106751992 := by omega
  rw [addDay, hjulian]
  generalize t / 86400000000 = days at *
  by_cases hwrap : -120297 < days + 2451545 + day ∧ days + 2451545 + day < -32044
  · obtain ⟨hrange, hmissed⟩ := j2date_misses hwrap
    rw [toInt32_of (by omega)]
    exact ⟨_, hrange, by omega, .inl rfl⟩
  obtain ⟨hvalid, hnumber⟩ := ofNumber_spec (days + 730120 + day)
  have hnone : missedDays (days + 2451545 + day) = 0 := if_pos (by omega)
  refine ⟨_, hvalid.inRange, by rw [hnumber, hnone, add_zero], ?_⟩
  by_cases hfits : 0 ≤ days + 2451545 + day + 32044
  · left
    refine j2date_eq (by omega) ?_
    unfold toUInt32 toInt32
    omega
  -- too far back to wrap only once
  have hdate : j2date (toInt32 (days + 2451545 + day)) =
      ofNumber (days + 730120 + day + 4294967296) := by
    refine j2date_eq (by omega) ?_
    unfold toUInt32 toInt32
    omega
  rw [hdate]
  obtain ⟨hvalid', hnumber'⟩ := ofNumber_spec (days + 730120 + day + 4294967296)
  refine .inr ⟨fun hj => ?_, fun hj => ?_⟩
  · have := number_bounds hvalid'.inRange hj
    omega
  · have := number_bounds hvalid.inRange hj
    omega

variable {span : Interval}

/-- the timestamp after adding the months, in unbounded integers -/
def plMonths (t : ℤ) (span : Interval) : ℤ := micros ((dateOf t).addMonths span.month) (t % 86400000000)

/-- months in the calendar, then days, then microseconds, in unbounded integers -/
def plInterval (t : ℤ) (span : Interval) : ℤ := plMonths t span + span.day * 86400000000 + span.time

/-- the days that the day part misses -/
def missed (t : ℤ) (span : Interval) : ℤ :=
  if span.day = 0 then 0 else missedDays (plMonths t span / 86400000000 + 2451545 + span.day)

/-- the timestamp that the day part makes of the one after the months -/
def plDays (t : ℤ) (span : Interval) : ℤ := plMonths t span + (span.day + missed t span) * 86400000000

theorem addMonths_zero (h : date.Valid) : date.addMonths 0 = date := by
  obtain ⟨y, m, d⟩ := date
  have hm : 1 ≤ m ∧ m ≤ 12 := h.month
  have hday : d ≤ daysInMonth y m := h.day.2
  unfold addMonths
  dsimp only
  rw [show (y * 12 + (m - 1) + 0) / 12 = y by omega,
    show (y * 12 + (m - 1) + 0) % 12 + 1 = m by omega, min_eq_left hday]

theorem plMonth_cases (ht : IsInt64 t) (hmonth : IsInt32 span.month) :
    (span.month = 0 ∨ Passes t (plMonths t span) → plMonth span.month t = .ok (plMonths t span) ∧
      IsInt64 (plMonths t span)) ∧
      (¬ (span.month = 0 ∨ Passes t (plMonths t span)) → plMonth span.month t = .error outOfRange) := by
  obtain ⟨hvalid, hnumber⟩ := dateOf_spec t
  unfold plMonth
  by_cases hzero : span.month = 0
  · have hsame : plMonths t span = t := by rw [plMonths, hzero, addMonths_zero hvalid, micros_dateOf]
    rw [if_neg (not_not.2 hzero), hsame]
    exact ⟨fun _ => ⟨rfl, ht⟩, fun h => absurd (.inl hzero) h⟩
  rw [if_pos hzero, or_iff_right hzero]
  obtain ⟨hpass, hfail⟩ :=
    @changeDate_cases _ t (addMonth span.month) ht (hvalid.addMonths span.month).inRange fun hnonneg =>
      addMonth_cases hvalid (isValidJulian_of hvalid.inRange (by omega)) hmonth
  refine ⟨fun h => ⟨hpass h, ?_⟩, hfail⟩
  have hin := h.2
  unfold IsValidTimestamp minTimestamp endTimestamp at hin
  omega

theorem plDay_cases (hbounds : IsInt64 (plMonths t span)) (hday : IsInt32 span.day) :
    (span.day = 0 ∨ Passes (plMonths t span) (plDays t span) →
      plDay span.day (plMonths t span) = .ok (plDays t span)) ∧
      (¬ (span.day = 0 ∨ Passes (plMonths t span) (plDays t span)) →
        plDay span.day (plMonths t span) = .error outOfRange) := by
  unfold plDay plDays missed
  by_cases hzero : span.day = 0
  · simp [hzero]
  rw [if_pos hzero, if_neg hzero, or_iff_right hzero]
  generalize plMonths t span = t at *
  by_cases hnonneg : 0 ≤ t / 86400000000 + 2451545
  · obtain ⟨date, hrange, hnumber, hadd⟩ := addDay_cases hbounds hnonneg hday
    have hmicros : micros date (t % 86400000000) =
        t + (span.day + missedDays (t / 86400000000 + 2451545 + span.day)) * 86400000000 := by
      rw [micros_eq, hnumber]
      omega
    rw [← hmicros]
    exact changeDate_cases hbounds hrange fun _ => hadd
  · rcases timestamp2tm_cases hbounds with ⟨-, hnone⟩ | ⟨hnonneg', -⟩
    · exact ⟨fun h => absurd h.1 hnonneg, fun _ => by rw [changeDate, hnone]⟩
    · exact absurd hnonneg' hnonneg

/-- Every range check of the call accepts. -/
structure Accepted (t : ℤ) (span : Interval) : Prop where
  months : span.month = 0 ∨ Passes t (plMonths t span)
  days : span.day = 0 ∨ Passes (plMonths t span) (plDays t span)
  sum : IsValidTimestamp (toInt64 (plDays t span + span.time))

theorem timestampPlInterval_cases (ht : dtNobegin < t ∧ t < dtNoend) (hmonth : IsInt32 span.month)
    (hday : IsInt32 span.day) :
    (Accepted t span → timestampPlInterval t span = .ok (toInt64 (plDays t span + span.time))) ∧
      (¬ Accepted t span → timestampPlInterval t span = .error outOfRange) := by
  have hfinite : ¬ (t = dtNobegin ∨ t = dtNoend) := by omega
  have hrange : IsInt64 t := ⟨ht.1.le, ht.2.le⟩
  obtain ⟨hmonths, hnomonths⟩ := plMonth_cases hrange hmonth
  rw [timestampPlInterval, if_neg hfinite]
  by_cases hm : span.month = 0 ∨ Passes t (plMonths t span)
  swap
  · rw [hnomonths hm]
    exact ⟨fun h => absurd h.months hm, fun _ => rfl⟩
  obtain ⟨hok, hbounds⟩ := hmonths hm
  obtain ⟨hdays, hnodays⟩ := plDay_cases hbounds hday
  rw [hok, ok_bind]
  by_cases hd : span.day = 0 ∨ Passes (plMonths t span) (plDays t span)
  swap
  · rw [hnodays hd]
    exact ⟨fun h => absurd h.days hd, fun _ => rfl⟩
  rw [hdays hd, ok_bind]
  exact ⟨fun h => if_neg (not_not.2 h.sum), fun h => if_pos fun hsum => h ⟨hm, hd, hsum⟩⟩

theorem toInt64_eq_iff {k : ℤ} (hk : k = 0 ∨ k = 88192 ∨ k = 88193) (x : ℤ) :
    toInt64 (x + k * 86400000000) = x ↔ k = 0 ∧ IsInt64 x := by
  unfold toInt64
  rcases hk with rfl | rfl | rfl <;> omega

theorem intervalCmpValue_eq (i : Interval) :
    intervalCmpValue i = (i.month * 30 + i.day) * 86400000000 + i.time := by
  have := tmod_add_mul_tdiv i.time 86400000000
  unfold intervalCmpValue usecsPerDay
  dsimp only
  omega

theorem sameSign_value (unit rest high low : ℤ) :
    (sameSign unit rest high low).1 * unit + (sameSign unit rest high low).2 = high * unit + low := by
  unfold sameSign
  split_ifs <;> grind

/-- A sum that wraps is off by whole turns. -/
theorem carry_spec {unit : ℤ} (hunit : 0 < unit) (high low : ℤ) :
    ∃ k, (carry unit high low).1 = high + low.tdiv unit - 4294967296 * k ∧
    IsInt32 (carry unit high low).1 ∧ (k = 0 ↔ IsInt32 (high + low.tdiv unit)) ∧
      (carry unit high low).2 = low - low.tdiv unit * unit ∧
    -unit < (carry unit high low).2 ∧ (carry unit high low).2 < unit := by
  have hlow : (carry unit high low).2 = low - low.tdiv unit * unit := by
    unfold carry tmodulo
    grind
  have hhigh : (carry unit high low).1 = toInt32 (high + low.tdiv unit) := rfl
  rw [hhigh, toInt32]
  refine ⟨(high + low.tdiv unit + 2147483648) / 4294967296, by omega, by omega, by omega, hlow, ?_⟩
  rw [hlow, mul_comm, ← tmod_def]
  exact ⟨lt_tmod_of_pos low hunit, tmod_lt_of_pos low hunit⟩

/-- A justified interval equals the given one exactly when neither sum wraps; none is refused. -/
theorem intervalJustify_exact (htime : IsInt64 span.time) (hday : IsInt32 span.day) :
    (intervalCmpInternal (intervalJustifyHours span) span = .eq ↔
      IsInt32 (span.day + span.time.tdiv usecsPerDay)) ∧
    (intervalCmpInternal (intervalJustifyDays span) span = .eq ↔
      IsInt32 (span.month + span.day.tdiv daysPerMonth)) ∧
    (intervalCmpInternal (intervalJustifyInterval span) span = .eq ↔
      IsInt32 (span.day + span.time.tdiv usecsPerDay) ∧
      IsInt32 (span.month + (span.day + span.time.tdiv usecsPerDay).tdiv daysPerMonth)) ∧
    ∀ r, intervalJustifyInterval span = r → |r.time| < usecsPerDay ∧ |r.day| < daysPerMonth ∧
      (0 ≤ r.time ∧ 0 ≤ r.day ∧ 0 ≤ r.month ∨ r.time ≤ 0 ∧ r.day ≤ 0 ∧ r.month ≤ 0) := by
  obtain ⟨k, hday', hint, hk, htime', hlimit⟩ :=
    carry_spec (show 0 < usecsPerDay by decide) span.day span.time
  simp only [intervalCmpInternal, compare_eq_iff_eq, intervalCmpValue_eq, intervalJustifyHours,
    intervalJustifyDays, intervalJustifyInterval]
  generalize carry usecsPerDay span.day span.time = first at *
  have hmonths (day : ℤ) := carry_spec (show 0 < daysPerMonth by decide) span.month day
  refine ⟨?_, ?_, ?_, ?_⟩
  · have := sameSign_value usecsPerDay 0 first.1 first.2
    unfold usecsPerDay at *
    omega
  · obtain ⟨n, hmonth, -, hn, hday, -⟩ := hmonths span.day
    generalize carry daysPerMonth span.month span.day = second at *
    have := sameSign_value daysPerMonth 0 second.1 second.2
    unfold daysPerMonth at *
    omega
  · obtain ⟨n, hmonth, -, hn, hday, -⟩ := hmonths first.1
    generalize carry daysPerMonth span.month first.1 = second at *
    have hsign := sameSign_value daysPerMonth first.2 second.1 second.2
    generalize sameSign daysPerMonth first.2 second.1 second.2 = third at *
    have := sameSign_value usecsPerDay 0 third.2 first.2
    have hquot := tdiv_cases span.time 86400000000
    unfold usecsPerDay daysPerMonth at *
    -- a wrap of the days is not made up for by one of the months
    rcases eq_or_ne k 0 with rfl | hne
    · rw [mul_zero, sub_zero] at hday'
      rw [← hday']
      omega
    · omega
  · rintro r rfl
    obtain ⟨n, -, -, -, -, hdays⟩ := hmonths first.1
    generalize carry daysPerMonth span.month first.1 = second at hdays ⊢
    obtain ⟨month, day⟩ := second
    rw [abs_lt, abs_lt]
    unfold sameSign usecsPerDay daysPerMonth at *
    clear * - hlimit hdays
    dsimp only at hdays ⊢
    split_ifs <;> dsimp only at * <;> omega

/-- A month less a day and a half. -/
theorem intervalJustify_exact_mixed :
    intervalCmpInternal (intervalJustifyInterval ⟨-43200000000, -1, 1⟩) ⟨-43200000000, -1, 1⟩ = .eq :=
  (@intervalJustify_exact ⟨-43200000000, -1, 1⟩ (by decide) (by decide)).2.2.1.2 (by decide)

/-- A day more than fits makes the days negative, a month more than fits the months. -/
theorem intervalJustify_wraps :
    intervalCmpInternal (intervalJustifyHours ⟨86400000000, 2147483647, 0⟩)
      ⟨86400000000, 2147483647, 0⟩ = .lt ∧
    intervalCmpInternal (intervalJustifyDays ⟨0, 30, 2147483647⟩) ⟨0, 30, 2147483647⟩ = .lt ∧
    intervalCmpInternal (intervalJustifyInterval ⟨86400000000, 2147483647, 0⟩) ⟨86400000000, 2147483647,
      0⟩ = .lt := by decide +kernel

end Pg.Timestamp
