import PgRetrofit.Sanity.JulianDays

/-! Fields and microseconds: `tm2timestamp` gives the exact number or none, and gets a timestamp
back from its fields. -/

namespace Pg.Timestamp

open Gregorian Date Int Option

/-- the microseconds from the start of the day to the time of day, in unbounded integers -/
def timeOfDay (tm : PgTm) (fsec : ℤ) :
    ℤ := ((tm.tmHour * 60 + tm.tmMin) * 60 + tm.tmSec) * 1000000 + fsec

/-- A time of day, up to 24:00:00. -/
structure IsTime (tm : PgTm) (fsec : ℤ) : Prop where
  hour : 0 ≤ tm.tmHour
  min : 0 ≤ tm.tmMin
  sec : 0 ≤ tm.tmSec
  usec : 0 ≤ fsec
  le : timeOfDay tm fsec ≤ 86400000000

/-- the microseconds from 2000-01-01 to a time of a date, in unbounded integers -/
def micros (date : Date) (time : ℤ) : ℤ := (date.number - (Date.mk 2000 1 1).number) * 86400000000 + time

theorem micros_eq (date : Date) (time : ℤ) :
    micros date time = (date.number - 730120) * 86400000000 + time := rfl

theorem time2t_eq {tm : PgTm} {fsec : ℤ} (h : IsTime tm fsec) :
    time2t tm.tmHour tm.tmMin tm.tmSec fsec = timeOfDay tm fsec := by
  obtain ⟨hhour, hmin, hsec, hfsec, hle⟩ := h
  unfold timeOfDay at *
  unfold time2t minsPerHour secsPerMinute usecsPerSec
  rw [toInt32_of (by omega), toInt64_of (by omega)]

/-- The sum of days and time fits, or one of the checks fails. -/
theorem checks_iff {date time result : ℤ} (hdate : -2451700 ≤ date ∧ date ≤ 2147483647)
    (htime : 0 ≤ time ∧ time ≤ 86400000000) (hresult : toInt64 (date * usecsPerDay + time) = result) :
    ((toInt64 (result - time)).tdiv usecsPerDay = date ∧
      ¬ (result < 0 ∧ date > 0 ∨ result > 0 ∧ date < -1)) ↔
      date * usecsPerDay + time ≤ 9223372036854775807 := by
  have hcases := tdiv_cases (toInt64 (result - time)) usecsPerDay
  subst hresult
  unfold usecsPerDay at *
  constructor
  · unfold toInt64 at *
    omega
  intro hle
  have hresult : toInt64 (date * 86400000000 + time) = date * 86400000000 + time := toInt64_of (by omega)
  rw [hresult, add_sub_cancel_right, toInt64_of (by omega), mul_tdiv_cancel _ (by decide)]
  omega

/-- A sum that wraps past the end is not a timestamp, before and after. -/
theorem isValid_toInt64 {x : ℤ} (hx : -9223372036854775808 ≤ x ∧ x ≤ 9223459000000000000) :
    (if ¬ IsValidTimestamp (toInt64 x) then none else some (toInt64 x)) = if IsValidTimestamp x then
      some x else none := by
  by_cases hfits : IsInt64 x
  · rw [toInt64_of hfits, ite_not]
  rw [if_pos, if_neg]
  · unfold IsValidTimestamp endTimestamp minTimestamp
    omega
  · unfold toInt64 IsValidTimestamp endTimestamp minTimestamp
    omega

theorem elim_dt2local {result : ℤ} (hresult : IsInt64 result) (tzp : Option ℤ)
    (htz : ∀ tz ∈ tzp, -86400 < tz ∧ tz < 86400) :
    (tzp.elim result fun tz => dt2local result (toInt32 (-tz))) =
      toInt64 (result + tzp.getD 0 * 1000000) := by
  cases tzp with
  | none =>
    rw [elim_none, getD_none, zero_mul, add_zero, toInt64_of hresult]
  | some tz =>
    have := htz tz rfl
    rw [elim_some, getD_some, dt2local, toInt32_of (by omega), usecsPerSec, neg_mul, sub_neg_eq_add]

/-- The microseconds of the fields and of the offset, if they are a timestamp. -/
theorem tm2timestamp_eq (tm : PgTm) {fsec : ℤ} (hdate : tm.date.InRange)
    (hj : IsValidJulian tm.tmYear tm.tmMon) (htime : IsTime tm fsec) (tzp : Option ℤ)
    (htz : ∀ tz ∈ tzp, -86400 < tz ∧ tz < 86400) :
    tm2timestamp tm fsec tzp =
      if IsValidTimestamp (micros tm.date (timeOfDay tm fsec) + tzp.getD 0 * 1000000) then
        some (micros tm.date (timeOfDay tm fsec) + tzp.getD 0 * 1000000) else none := by
  have hjulian : date2j tm.tmYear tm.tmMon tm.tmMday = tm.date.number + 1721425 :=
    @date2j_eq tm.date hdate hj
  have hbounds := number_bounds hdate hj
  have hday : toInt32 (tm.date.number + 1721425 - postgresEpochJdate) = tm.date.number - 730120 := by
    unfold postgresEpochJdate
    rw [toInt32_of (by omega)]
    omega
  have htimes : 0 ≤ timeOfDay tm fsec ∧ timeOfDay tm fsec ≤ 86400000000 := by
    obtain ⟨hhour, hmin, hsec, hfsec, hle⟩ := htime
    refine ⟨?_, hle⟩
    unfold timeOfDay
    omega
  have hzone : -86400 < tzp.getD 0 ∧ tzp.getD 0 < 86400 := by
    cases tzp with
    | none => decide
    | some tz => exact htz tz rfl
  unfold tm2timestamp
  rw [if_neg (not_not.2 hj), hjulian, hday, time2t_eq htime, micros_eq]
  dsimp only
  generalize timeOfDay tm fsec = time at *
  generalize hdays : tm.date.number - 730120 = days at *
  generalize hresult : toInt64 (days * usecsPerDay + time) = result
  have hchecks := checks_iff (by omega) htimes hresult
  by_cases hfits : days * usecsPerDay + time ≤ 9223372036854775807
  · obtain ⟨hdiv, hsign⟩ := hchecks.2 hfits
    rw [if_neg (not_not.2 hdiv), if_neg hsign]
    unfold usecsPerDay at *
    rw [toInt64_of (by omega)] at hresult
    rw [elim_dt2local (by omega) tzp htz, ← hresult]
    exact isValid_toInt64 (by omega)
  have hinvalid : ¬ IsValidTimestamp (days * 86400000000 + time + tzp.getD 0 * 1000000) := by
    unfold IsValidTimestamp endTimestamp
    unfold usecsPerDay at hfits
    omega
  rw [if_neg hinvalid]
  by_cases hdiv : (toInt64 (result - time)).tdiv usecsPerDay = days
  · rw [if_neg (not_not.2 hdiv), if_pos]
    by_contra hsign
    exact hfits (hchecks.1 ⟨hdiv, hsign⟩)
  · rw [if_pos hdiv]

theorem dt2time_spec {time : ℤ} (h : 0 ≤ time ∧ time < 86400000000) :
    ∃ hour min sec fsec, dt2time time = (hour, min, sec, fsec) ∧
    0 ≤ hour ∧ 0 ≤ min ∧ 0 ≤ sec ∧ 0 ≤ fsec ∧
      ((hour * 60 + min) * 60 + sec) * 1000000 + fsec = time := by
  refine ⟨_, _, _, _, rfl, ?_⟩
  unfold usecsPerHour usecsPerMinute usecsPerSec
  rw [tdiv_eq_ediv_of_nonneg h.1, toInt32_of (by omega), tdiv_eq_ediv_of_nonneg (by omega),
    toInt32_of (by omega), tdiv_eq_ediv_of_nonneg (by omega), toInt32_of (by omega),
      toInt32_of (by omega)]
  omega

theorem tmodulo_floor (dt : ℤ) : (if (tmodulo dt usecsPerDay).1 < 0 then
    ((tmodulo dt usecsPerDay).1 + usecsPerDay, (tmodulo dt usecsPerDay).2 - 1)
      else tmodulo dt usecsPerDay) = (dt % 86400000000, dt / 86400000000) := by
  have hcases := tdiv_cases dt usecsPerDay
  unfold tmodulo usecsPerDay at *
  dsimp only
  split_ifs <;> rw [Prod.mk.injEq] <;> omega

/-- the date of a timestamp -/
def dateOf (t : ℤ) : Date := ofNumber (t / 86400000000 + 730120)

theorem dateOf_spec (t : ℤ) : (dateOf t).Valid ∧ (dateOf t).number = t / 86400000000 + 730120 :=
  ofNumber_spec _

theorem micros_dateOf (t : ℤ) : micros (dateOf t) (t % 86400000000) = t := by
  rw [micros_eq, (dateOf_spec t).2]
  omega

/-- There is no Julian day, or the fields are the date and the time of day. -/
theorem timestamp2tm_cases {dt : ℤ} (hdt : IsInt64 dt) :
    dt / 86400000000 + 2451545 < 0 ∧ timestamp2tm dt = none ∨
      0 ≤ dt / 86400000000 + 2451545 ∧
      ∃ tm fsec, timestamp2tm dt = some (tm, fsec) ∧ tm.date = dateOf dt ∧
        IsTime tm fsec ∧ timeOfDay tm fsec = dt % 86400000000 := by
  obtain ⟨hour, min, sec, fsec, htime, hhour, hmin, hsec, hfsec, hsum⟩ :=
    dt2time_spec (⟨emod_nonneg dt (by decide), emod_lt_of_pos dt (by decide)⟩ : 0 ≤ dt % 86400000000 ∧ _)
  have hfloor := tmodulo_floor dt
  unfold timestamp2tm
  dsimp only
  rw [hfloor]
  rw [htime, postgresEpochJdate, intMax]
  rcases lt_or_ge (dt / 86400000000 + 2451545) 0 with hneg | hnonneg
  · exact .inl ⟨hneg, if_pos (.inl hneg)⟩
  refine .inr ⟨hnonneg, _, _, if_neg (by omega), ?_, ⟨hhour, hmin, hsec, hfsec, ?_⟩, hsum⟩
  · refine j2date_eq (by omega) ?_
    unfold toUInt32
    omega
  · exact hsum.le.trans (emod_lt_of_pos dt (by decide)).le

theorem tm2timestamp_timestamp2tm {t : ℤ} (ht : IsValidTimestamp t) :
    ∃ tm fsec, timestamp2tm t = some (tm, fsec) ∧ tm2timestamp tm fsec none = some t := by
  have hbounds := ht
  unfold IsValidTimestamp minTimestamp endTimestamp at hbounds
  have hrange : IsInt64 t := by omega
  rcases timestamp2tm_cases hrange with ⟨hneg, -⟩ | ⟨hnonneg, tm, fsec, htm, hdate, htime, hday⟩
  · omega
  obtain ⟨hvalid, hnumber⟩ := dateOf_spec t
  rw [← hdate] at hvalid hnumber
  refine ⟨tm, fsec, htm, ?_⟩
  rw [tm2timestamp_eq tm hvalid.inRange (isValidJulian_of hvalid.inRange (by omega)) htime none
    (fun tz htz => nomatch htz), hday, hdate, micros_dateOf, getD_none, zero_mul, add_zero, if_pos ht]

/-- The microseconds are exact, and a timestamp is got back from its fields. -/
theorem tm2timestamp_exact :
    (∀ tm fsec tzp, tm.date.Valid → IsValidJulian tm.tmYear tm.tmMon → IsTime tm fsec →
      (∀ tz ∈ tzp, -86400 < tz ∧ tz < 86400) →
      tm2timestamp tm fsec tzp =
        if IsValidTimestamp (micros tm.date (timeOfDay tm fsec) + tzp.getD 0 * 1000000) then
          some (micros tm.date (timeOfDay tm fsec) + tzp.getD 0 * 1000000) else none) ∧
    ∀ t, IsValidTimestamp t →
      ∃ tm fsec, timestamp2tm t = some (tm, fsec) ∧ tm2timestamp tm fsec none = some t :=
  ⟨fun tm _ tzp hdate hj htime htz => tm2timestamp_eq tm hdate.inRange hj htime tzp htz,
    fun _ ht => tm2timestamp_timestamp2tm ht⟩

/-- The end of a leap day, an hour west of its zone. -/
theorem tm2timestamp_exact_leap :
    tm2timestamp ⟨2004, 2, 29, 24, 0, 0⟩ 0 (some 3600) = some 131418000000000 :=
  (tm2timestamp_exact.1 ⟨2004, 2, 29, 24, 0, 0⟩ 0 (some 3600) ⟨by decide, by decide⟩ (by decide)
    ⟨by decide, by decide, by decide, by decide, by decide⟩
    (by decide)).trans (by decide +kernel)

end Pg.Timestamp
