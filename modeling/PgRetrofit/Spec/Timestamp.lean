import PgRetrofit.Lib.Gregorian

/-! Timestamps as calendar fields (`timestamp.c`, `datetime.c`), without time zone rules:
microseconds from 2000-01-01 in 64 bits, Julian days in 32 bits. -/

namespace Pg.Timestamp

open Gregorian

def toInt32 (x : ℤ) : ℤ := (x + 2147483648) % 4294967296 - 2147483648

def toUInt32 (x : ℤ) : ℤ := x % 4294967296

def toInt64 (x : ℤ) : ℤ := (x + 9223372036854775808) % 18446744073709551616 - 9223372036854775808

abbrev IsInt32 (x : ℤ) : Prop := -2147483648 ≤ x ∧ x ≤ 2147483647

abbrev IsInt64 (x : ℤ) : Prop := -9223372036854775808 ≤ x ∧ x ≤ 9223372036854775807

def intMax : ℤ := 2147483647

def usecsPerDay : ℤ := 86400000000
def usecsPerHour : ℤ := 3600000000
def usecsPerMinute : ℤ := 60000000
def usecsPerSec : ℤ := 1000000
def minsPerHour : ℤ := 60
def secsPerMinute : ℤ := 60
def monthsPerYear : ℤ := 12

def julianMinyear : ℤ := -4713
def julianMinmonth : ℤ := 11
def julianMaxyear : ℤ := 5874898
def julianMaxmonth : ℤ := 6

/-- `date2j(2000, 1, 1)` -/
def postgresEpochJdate : ℤ := 2451545

def minTimestamp : ℤ := -211813488000000000
def endTimestamp : ℤ := 9223371331200000000

def IsValidJulian (y m : ℤ) : Prop :=
  (y > julianMinyear ∨ y = julianMinyear ∧ m ≥ julianMinmonth) ∧
    (y < julianMaxyear ∨ y = julianMaxyear ∧ m < julianMaxmonth)

instance (y m : ℤ) : Decidable (IsValidJulian y m) := inferInstanceAs (Decidable (_ ∧ _))

def IsValidTimestamp (t : ℤ) : Prop := minTimestamp ≤ t ∧ t < endTimestamp

instance (t : ℤ) : Decidable (IsValidTimestamp t) := inferInstanceAs (Decidable (_ ∧ _))

/-- Only the divisions see where a sum wraps. -/
def date2j (y m d : ℤ) : ℤ :=
  let (m, y) := if m > 2 then (m + 1, toInt32 (y + 4800)) else (m + 13, toInt32 (y + 4799))
  let century := y.tdiv 100
  toInt32 (y * 365 - 32167 + (y.tdiv 4 - century + century.tdiv 4) + ((toInt32 (7834 * m)).tdiv 256 + d))

/-- From the second `quad` on the numbers are too small to wrap. -/
def j2date (jd : ℤ) : Date :=
  let julian := toUInt32 (toUInt32 jd + 32044)
  let quad := julian / 146097
  let extra := (julian - quad * 146097) * 4 + 3
  let julian := toUInt32 (julian + (60 + quad * 3 + extra / 146097))
  let quad := julian / 1461
  let julian := julian - quad * 1461
  let y := julian * 4 / 1461
  let julian := (if y ≠ 0 then (julian + 305) % 365 else (julian + 306) % 366) + 123
  let y := y + quad * 4
  let quad := julian * 2141 / 65536
  ⟨y - 4800, (quad + 10) % monthsPerYear + 1, julian - 7834 * quad / 256⟩

structure PgTm where
  tmYear : ℤ
  tmMon : ℤ
  tmMday : ℤ
  tmHour : ℤ
  tmMin : ℤ
  tmSec : ℤ
deriving DecidableEq

def PgTm.date (tm : PgTm) : Date := ⟨tm.tmYear, tm.tmMon, tm.tmMday⟩

def PgTm.setDate (tm : PgTm) (d : Date) : PgTm :=
  { tm with tmYear := d.year, tmMon := d.month, tmMday := d.day }

def time2t (hour min sec fsec : ℤ) : ℤ :=
  toInt64 (toInt32 ((hour * minsPerHour + min) * secsPerMinute + sec) * usecsPerSec + fsec)

/-- hours, minutes, seconds and microseconds -/
def dt2time (jd : ℤ) : ℤ × ℤ × ℤ × ℤ :=
  let time := jd
  let hour := toInt32 (time.tdiv usecsPerHour)
  let time := time - hour * usecsPerHour
  let min := toInt32 (time.tdiv usecsPerMinute)
  let time := time - min * usecsPerMinute
  let sec := toInt32 (time.tdiv usecsPerSec)
  (hour, min, sec, toInt32 (time - sec * usecsPerSec))

def dt2local (dt tz : ℤ) : ℤ := toInt64 (dt - tz * usecsPerSec)

/-- the remainder and the quotient, which is cut off towards zero -/
def tmodulo (t u : ℤ) : ℤ × ℤ :=
  let q := t.tdiv u
  (if q ≠ 0 then t - q * u else t, q)

/-- fields and microseconds of the second, with no time zone asked for -/
def timestamp2tm (dt : ℤ) : Option (PgTm × ℤ) :=
  let (time, date) := tmodulo dt usecsPerDay
  let (time, date) := if time < 0 then (time + usecsPerDay, date - 1) else (time, date)
  let date := date + postgresEpochJdate
  if date < 0 ∨ date > intMax then none
  else
    let d := j2date date
    let (hour, min, sec, fsec) := dt2time time
    some (⟨d.year, d.month, d.day, hour, min, sec⟩, fsec)

def tm2timestamp (tm : PgTm) (fsec : ℤ) (tzp : Option ℤ) : Option ℤ :=
  if ¬ IsValidJulian tm.tmYear tm.tmMon then none
  else
    let date := toInt32 (date2j tm.tmYear tm.tmMon tm.tmMday - postgresEpochJdate)
    let time := time2t tm.tmHour tm.tmMin tm.tmSec fsec
    let result := toInt64 (date * usecsPerDay + time)
    if (toInt64 (result - time)).tdiv usecsPerDay ≠ date then none
    else if result < 0 ∧ date > 0 ∨ result > 0 ∧ date < -1 then none
    else
      let result := tzp.elim result fun tz => dt2local result (toInt32 (-tz))
      if ¬ IsValidTimestamp result then none else some result

structure Interval where
  time : ℤ
  day : ℤ
  month : ℤ

def daysPerMonth : ℤ := 30

/-- The days fit in 64 bits, the product in 128. -/
def intervalCmpValue (interval : Interval) : ℤ :=
  let days := interval.time.tdiv usecsPerDay + interval.month * 30 + interval.day
  interval.time.tmod usecsPerDay + days * usecsPerDay

def intervalCmpInternal (interval1 interval2 : Interval) : Ordering :=
  compare (intervalCmpValue interval1) (intervalCmpValue interval2)

/-- Whole units leave the lower of two fields for the higher, which "could overflow". -/
def carry (unit high low : ℤ) : ℤ × ℤ :=
  let (low, whole) := tmodulo low unit
  (toInt32 (high + whole), low)

/-- The lower field gets the sign of the higher; if it is 0, `rest` must have it. -/
def sameSign (unit rest high low : ℤ) : ℤ × ℤ :=
  if high > 0 ∧ (low < 0 ∨ low = 0 ∧ rest < 0) then (high - 1, low + unit)
  else if high < 0 ∧ (low > 0 ∨ low = 0 ∧ rest > 0) then (high + 1, low - unit)
  else (high, low)

def intervalJustifyInterval (span : Interval) : Interval :=
  let (day, time) := carry usecsPerDay span.day span.time
  let (month, day) := carry daysPerMonth span.month day
  let (month, day) := sameSign daysPerMonth time month day
  let (day, time) := sameSign usecsPerDay 0 day time
  ⟨time, day, month⟩

def intervalJustifyHours (span : Interval) : Interval :=
  let (day, time) := carry usecsPerDay span.day span.time
  let (day, time) := sameSign usecsPerDay 0 day time
  { span with time, day }

def intervalJustifyDays (span : Interval) : Interval :=
  let (month, day) := carry daysPerMonth span.month span.day
  let (month, day) := sameSign daysPerMonth 0 month day
  { span with day, month }

def dtNobegin : ℤ := -9223372036854775808
def dtNoend : ℤ := 9223372036854775807

def isleap (y : ℤ) : Bool := y.tmod 4 = 0 ∧ (y.tmod 100 ≠ 0 ∨ y.tmod 400 = 0)

def dayTab : Bool → List ℤ
  | false => [31, 28, 31, 30, 31, 30, 31, 31, 30, 31, 30, 31, 0]
  | true => [31, 29, 31, 30, 31, 30, 31, 31, 30, 31, 30, 31, 0]

/-- The month part. The year of a timestamp is too small for a sum to wrap, the month is not. -/
def addMonth (month : ℤ) (tm : Date) : Date :=
  let mon := toInt32 (tm.month + month)
  let (year, mon) :=
    if mon > monthsPerYear then
      (tm.year + (mon - 1).tdiv monthsPerYear, (mon - 1).tmod monthsPerYear + 1)
    else if mon < 1 then (tm.year + (mon.tdiv monthsPerYear - 1), mon.tmod monthsPerYear + monthsPerYear)
    else (tm.year, mon)
  let last := (dayTab (isleap year)).getD (mon - 1).toNat 0
  ⟨year, mon, if tm.day > last then last else tm.day⟩

/-- The day part, to and from Julian days. -/
def addDay (day : ℤ) (tm : Date) : Date := j2date (toInt32 (date2j tm.year tm.month tm.day + day))

def outOfRange : String := "timestamp out of range"

/-- The date of a timestamp changes, and its time of day stays. -/
def changeDate (change : Date → Date) (timestamp : ℤ) : Except String ℤ :=
  match timestamp2tm timestamp with
  | none => .error outOfRange
  | some (tm, fsec) =>
    match tm2timestamp (tm.setDate (change tm.date)) fsec none with
    | none => .error outOfRange
    | some timestamp => .ok timestamp

def plMonth (month timestamp : ℤ) : Except String ℤ :=
  if month ≠ 0 then changeDate (addMonth month) timestamp else .ok timestamp

def plDay (day timestamp : ℤ) : Except String ℤ :=
  if day ≠ 0 then changeDate (addDay day) timestamp else .ok timestamp

def timestampPlInterval (timestamp : ℤ) (span : Interval) : Except String ℤ :=
  if timestamp = dtNobegin ∨ timestamp = dtNoend then .ok timestamp
  else do
    let timestamp ← plMonth span.month timestamp
    let timestamp ← plDay span.day timestamp
    let timestamp := toInt64 (timestamp + span.time)
    if ¬ IsValidTimestamp timestamp then .error outOfRange else .ok timestamp

end Pg.Timestamp
