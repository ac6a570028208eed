import PgRetrofit.Spec.Timestamp

/-! The Julian day routines count the days of the Gregorian calendar, as far as their integers go. -/

namespace Pg.Timestamp

open Gregorian Date Int

theorem toInt32_of {x : ℤ} (h : IsInt32 x) : toInt32 x = x := by
  unfold toInt32
  omega

theorem toInt64_of {x : ℤ} (h : IsInt64 x) : toInt64 x = x := by
  unfold toInt64
  omega

theorem tdiv_cases (x k : ℤ) : 0 ≤ x ∧ x.tdiv k = x / k ∨ x < 0 ∧ x.tdiv k = -(-x / k) := by
  rcases le_or_gt 0 x with h | h
  · exact .inl ⟨h, tdiv_eq_ediv_of_nonneg h⟩
  · refine .inr ⟨h, ?_⟩
    rw [← tdiv_eq_ediv_of_nonneg (by omega), Int.neg_tdiv, neg_neg]

theorem julian_eq {y m d : ℤ} (hy : 0 ≤ y) (hm : 0 ≤ m ∧ m ≤ 15) (hd : 1 ≤ d ∧ d ≤ 31)
    (hmax : y < 5879698 ∨ y = 5879698 ∧ m < 7) :
    toInt32 (y * 365 - 32167 + (y.tdiv 4 - y.tdiv 100 + (y.tdiv 100).tdiv 4) +
      ((toInt32 (7834 * m)).tdiv 256 + d)) =
      daysBeforeMarch (y - 4800) + 7834 * m / 256 + d + 1720997 := by
  have hcentury : y.tdiv 100 = y / 100 := tdiv_eq_ediv_of_nonneg hy
  have hmonth : toInt32 (7834 * m) = 7834 * m := toInt32_of (by omega)
  rw [hcentury, tdiv_eq_ediv_of_nonneg hy, tdiv_eq_ediv_of_nonneg (by omega),
    tdiv_eq_ediv_of_nonneg (by omega), toInt32_of (by omega)]
  unfold daysBeforeMarch
  omega

variable {date : Date} (h : date.InRange)
include h

theorem inRange_form : (1 ≤ date.month ∧ date.month ≤ 12) ∧ (1 ≤ date.day ∧ date.day ≤ 31) ∧
    date.number = (if 2 < date.month then daysBeforeMarch date.year + 7834 * (date.month + 1) / 256
      else daysBeforeMarch (date.year - 1) + 7834 * (date.month + 13) / 256) + date.day - 428 :=
  ⟨h.month, h.day, number_eq h.month date.day⟩

variable (hj : IsValidJulian date.year date.month)
include hj

theorem date2j_eq : date2j date.year date.month date.day = date.number + 1721425 := by
  obtain ⟨hm, hd, hnumber⟩ := inRange_form h
  unfold IsValidJulian julianMinyear julianMaxyear julianMaxmonth at hj
  unfold date2j
  generalize date.year = y at *
  split_ifs with hfeb
  · have hyear : toInt32 (y + 4800) = y + 4800 := toInt32_of (by omega)
    dsimp only
    rw [hyear, julian_eq (by omega) (by omega) hd (by omega), add_sub_cancel_right]
    omega
  · have hyear : toInt32 (y + 4799) = y + 4799 := toInt32_of (by omega)
    dsimp only
    rw [hyear, julian_eq (by omega) (by omega) hd (by omega), show y + 4799 - 4800 = y - 1 by omega]
    omega

theorem number_bounds : -100 ≤ date.number + 1721425 ∧ date.number + 1721425 ≤ 2147483647 := by
  obtain ⟨hm, hd, hnumber⟩ := inRange_form h
  unfold IsValidJulian julianMinyear julianMinmonth julianMaxyear julianMaxmonth at hj
  unfold daysBeforeMarch at hnumber
  split_ifs at hnumber <;> omega

omit hj

theorem isValidJulian_of (hdays : 0 ≤ date.number + 1721425 ∧ date.number + 1721425 ≤ 2147483493) :
    IsValidJulian date.year date.month := by
  obtain ⟨hm, hd, hnumber⟩ := inRange_form h
  unfold IsValidJulian julianMinyear julianMinmonth julianMaxyear julianMaxmonth
  unfold daysBeforeMarch at hnumber
  split_ifs at hnumber <;> omega

omit h

/-- The years of a cycle of four start with January here, and with March there. -/
theorem year_of_julian {julian quad r y j year days : ℤ} (hquad : julian / 1461 = quad)
    (hr : julian - quad * 1461 = r) (hy : r * 4 / 1461 = y) (hjulian : julian = j + 1753260)
    (hyear : (j * 4 + 3) / 1461 = year) (hdays : j - 365 * year - year / 4 = days) :
    (if y ≠ 0 then (r + 305) % 365 else (r + 306) % 366) = days ∧
      y + quad * 4 - 4800 = if days < 306 then year else year + 1 := by
  obtain ⟨hlow, hhigh⟩ : 0 ≤ y ∧ y < 4 := by omega
  have heq : y + quad * 4 - 4800 = if days < 306 then year else year + 1 := by
    interval_cases y <;> split_ifs <;> omega
  refine ⟨?_, heq⟩
  have hrange : 0 ≤ days ∧ days ≤ 365 := by omega
  have hlast : days = 365 → (year + 1) % 4 = 0 := by omega
  clear hyear
  split_ifs at heq with hd <;> interval_cases y <;> simp <;> omega

theorem date_eq_ofMarch {y year days : ℤ} (hdays : 0 ≤ days ∧ days ≤ 365)
    (hyear : year = if days < 306 then y else y + 1) :
    (⟨year, ((days + 123) * 2141 / 65536 + 10) % monthsPerYear + 1,
      days + 123 - 7834 * ((days + 123) * 2141 / 65536) / 256⟩ : Date) = ofMarch y days := by
  unfold ofMarch monthsPerYear
  dsimp only
  split_ifs at hyear ⊢ <;> first | omega | (rw [Date.mk.injEq]; omega)

/-- The days since March are split off in the Julian calendar. -/
theorem j2date_ofMarch {jd first j : ℤ} (hfirst : toUInt32 (toUInt32 jd + 32044) = first)
    (hjulian : toUInt32
      (first + (60 + first / 146097 * 3 + ((first - first / 146097 * 146097) * 4 + 3) / 146097)) =
        j + 1753260) :
    j2date jd = ofMarch ((j * 4 + 3) / 1461)
      (j - 365 * ((j * 4 + 3) / 1461) - (j * 4 + 3) / 1461 / 4) := by
  unfold j2date
  rw [hfirst]
  dsimp only
  rw [hjulian]
  generalize hyear : (j * 4 + 3) / 1461 = year
  generalize hdays : j - 365 * year - year / 4 = days
  generalize hquad : (j + 1753260) / 1461 = quad
  generalize hr : j + 1753260 - quad * 1461 = r
  generalize hy : r * 4 / 1461 = y
  obtain ⟨hsame, heq⟩ := year_of_julian hquad hr hy rfl hyear hdays
  rw [hsame]
  exact date_eq_ofMarch (by omega) heq

theorem j2date_eq {jd n : ℤ} (hn : 0 ≤ n + 1753469 ∧ n + 1753469 ≤ 4294879043)
    (hjd : toUInt32 (toUInt32 jd + 32044) = n + 1753469) : j2date jd = ofNumber n := by
  refine j2date_ofMarch hjd ?_
  generalize hcentury : ((n + 305) * 4 + 3) / 146097 = century
  generalize hfirst : n + 1753469 = first at *
  have hquad : first / 146097 = century / 4 + 12 := by omega
  have hextra : ((first - first / 146097 * 146097) * 4 + 3) / 146097 =
    century + 48 - first / 146097 * 4 := by omega
  have hmax : century ≤ 117541 := by omega
  unfold toUInt32
  omega

/-- the days by which `j2date` misses a Julian day: a little below -32044 its second sum wraps -/
def missedDays (jd : ℤ) : ℤ :=
  if jd ≤ -120297 ∨ -32044 ≤ jd then 0
  else if -112783 ≤ jd ∧ jd < -83712 ∨ -76259 ≤ jd ∧ jd < -47188 then 88193
  else 88192

theorem j2date_misses {jd : ℤ} (hjd : -120297 < jd ∧ jd < -32044) :
    (j2date jd).InRange ∧ (j2date jd).number + 1721425 = jd + missedDays jd := by
  have hfirst : toUInt32 (toUInt32 jd + 32044) = jd + 4294999340 := by
    unfold toUInt32
    omega
  generalize hquad : (jd + 4294999340) / 146097 = quad
  generalize hextra : ((jd + 4294999340 - quad * 146097) * 4 + 3) / 146097 = extra
  have hcorrection : quad * 3 + extra = if jd < -112783 then 88192
      else if jd < -76259 then 88193 else 88194 := by
    have hcases : quad = 29397 ∨ quad = 29398 := by omega
    rcases hcases with rfl | rfl <;> split_ifs <;> omega
  obtain ⟨j, hj⟩ : ∃ j, jd + (quad * 3 + extra) - 1721156 = j := ⟨_, rfl⟩
  have hjulian : toUInt32 (jd + 4294999340 + (60 + quad * 3 + extra)) = j + 1753260 := by
    unfold toUInt32
    split_ifs at hcorrection <;> omega
  rw [j2date_ofMarch (j := j) hfirst (by rw [hquad, hextra, hjulian]), missedDays, if_neg (by omega)]
  clear hfirst hquad hextra hjulian
  generalize hyear : (j * 4 + 3) / 1461 = year
  have hdays : 0 ≤ j - 365 * year - year / 4 ∧ j - 365 * year - year / 4 ≤ 365 := by omega
  obtain ⟨hrange, hnumber⟩ := @ofMarch_number year _ hdays
  refine ⟨hrange, ?_⟩
  have hcentury : year / 100 - year / 400 = if year < -4700 then -36
      else if year < -4600 then -35 else -34 := by
    have hbounds : -4801 ≤ year ∧ year < -4500 := by
      split_ifs at hcorrection <;> omega
    clear hnumber hdays hyear
    rcases lt_or_ge year (-4800) with hlow | hhigh <;> split_ifs <;> omega
  have h4700 : year < -4700 ↔ j < -1716675 := by omega
  have h4600 : year < -4600 ↔ j < -1680150 := by omega
  rw [hnumber, daysBeforeMarch]
  clear hnumber hdays hyear
  simp only [h4700, h4600] at hcentury
  split_ifs at hcentury hcorrection ⊢ <;> omega

end Pg.Timestamp
