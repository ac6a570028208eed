import Mathlib.Tactic

/-! The Gregorian calendar, without end in both directions: dates, and days counted one by one. -/

namespace Gregorian

def IsLeap (y : ℤ) : Prop := y % 4 = 0 ∧ (y % 100 ≠ 0 ∨ y % 400 = 0)

instance (y : ℤ) : Decidable (IsLeap y) := inferInstanceAs (Decidable (_ ∧ _))

def daysInMonth (y m : ℤ) : ℤ :=
  if m = 2 then if IsLeap y then 29 else 28 else if m = 4 ∨ m = 6 ∨ m = 9 ∨ m = 11 then 30 else 31

@[ext]
structure Date where
  year : ℤ
  month : ℤ
  day : ℤ
deriving DecidableEq

namespace Date

structure Valid (date : Date) : Prop where
  month : 1 ≤ date.month ∧ date.month ≤ 12
  day : 1 ≤ date.day ∧ date.day ≤ daysInMonth date.year date.month

/-- the days from the first of January of the year 1 to that of a year -/
def daysBeforeYear (y : ℤ) : ℤ := 365 * (y - 1) + (y - 1) / 4 - (y - 1) / 100 + (y - 1) / 400

theorem daysBeforeYear_succ (y : ℤ) :
    daysBeforeYear (y + 1) = daysBeforeYear y + if IsLeap y then 366 else 365 := by
  unfold daysBeforeYear IsLeap
  split_ifs <;> omega

/-- the days of the first months of a year -/
def daysOfMonths (y : ℤ) : ℕ → ℤ
  | 0 => 0
  | n + 1 => daysOfMonths y n + daysInMonth y (n + 1)

/-- the number of a day, which is 1 on the first of January of the year 1 -/
def number (date : Date) :
    ℤ := daysBeforeYear date.year + daysOfMonths date.year (date.month - 1).toNat + date.day

/-- The month changes, and the day if the month does not have it. -/
def addMonths (date : Date) (n : ℤ) : Date :=
  let months := date.year * 12 + (date.month - 1) + n
  ⟨months / 12, months % 12 + 1, min date.day (daysInMonth (months / 12) (months % 12 + 1))⟩

theorem daysInMonth_bounds (y m : ℤ) : 28 ≤ daysInMonth y m ∧ daysInMonth y m ≤ 31 := by
  unfold daysInMonth
  split_ifs <;> omega

/-- a month of the year, and a day that some month has -/
structure InRange (date : Date) : Prop where
  month : 1 ≤ date.month ∧ date.month ≤ 12
  day : 1 ≤ date.day ∧ date.day ≤ 31

theorem Valid.inRange {date : Date} (h : date.Valid) : date.InRange :=
  ⟨h.month, h.day.1, h.day.2.trans (daysInMonth_bounds _ _).2⟩

theorem Valid.addMonths {date : Date} (h : date.Valid) (n : ℤ) : (date.addMonths n).Valid := by
  have hday := h.day
  refine ⟨?_, ?_, min_le_right _ _⟩
  · dsimp only [Date.addMonths]
    omega
  · exact le_min hday.1 (le_trans (by decide) (daysInMonth_bounds _ _).1)

/-- the days from the first of March of the year 0 to that of a year -/
def daysBeforeMarch (y : ℤ) : ℤ := 365 * y + y / 4 - y / 100 + y / 400

theorem daysBeforeMarch_eq (y : ℤ) :
    daysBeforeMarch y = daysBeforeYear y + if IsLeap y then 366 else 365 := by
  rw [← daysBeforeYear_succ, daysBeforeYear, daysBeforeMarch, add_sub_cancel_right]

/-- Counted from March, the days before a month follow one rule. -/
theorem number_eq {y m : ℤ} (hm : 1 ≤ m ∧ m ≤ 12) (d : ℤ) : (Date.mk y m d).number =
    (if 2 < m then daysBeforeMarch y + 7834 * (m + 1) / 256
      else daysBeforeMarch (y - 1) + 7834 * (m + 13) / 256) + d - 428 := by
  have hmarch := daysBeforeMarch_eq y
  have hbefore : daysBeforeMarch (y - 1) = daysBeforeYear y := rfl
  obtain ⟨hlow, hhigh⟩ := hm
  rw [number, hbefore]
  interval_cases m <;> by_cases hleap : IsLeap y <;>
    simp [daysOfMonths, daysInMonth, hleap] at hmarch ⊢ <;> omega

/-- the date at a distance from the first of March -/
def ofMarch (y days : ℤ) : Date :=
  let month := (days + 123) * 2141 / 65536
  let day := days + 123 - 7834 * month / 256
  if month < 14 then ⟨y, month - 1, day⟩ else ⟨y + 1, month - 13, day⟩

/-- The last of 366 days is counted on in a year that has 365. -/
theorem ofMarch_number {y days : ℤ} (hdays : 0 ≤ days ∧ days ≤ 365) :
    (ofMarch y days).InRange ∧ (ofMarch y days).number = daysBeforeMarch y + days - 305 := by
  unfold ofMarch
  dsimp only
  generalize hmonth : (days + 123) * 2141 / 65536 = month
  split_ifs with hm
  · have hrange : 1 ≤ month - 1 ∧ month - 1 ≤ 12 := by omega
    refine ⟨⟨hrange, by dsimp only; omega⟩, ?_⟩
    rw [number_eq hrange]
    omega
  · have hrange : 1 ≤ month - 13 ∧ month - 13 ≤ 12 := by omega
    refine ⟨⟨hrange, by dsimp only; omega⟩, ?_⟩
    rw [number_eq hrange, add_sub_cancel_right]
    omega

theorem ofMarch_valid {y days : ℤ} (hdays : 0 ≤ days ∧ days ≤ 365)
    (hleap : days = 365 → IsLeap (y + 1)) :
    (ofMarch y days).Valid := by
  refine ⟨(ofMarch_number hdays).1.month, ?_⟩
  unfold ofMarch
  dsimp only
  generalize hmonth : (days + 123) * 2141 / 65536 = month
  split_ifs with hm
  · dsimp only [daysInMonth]
    split_ifs <;> omega
  · dsimp only [daysInMonth]
    split_ifs with hfeb hyear <;> try omega
    have hne : days ≠ 365 := fun heq => hyear (hleap heq)
    omega

/-- the date of a day -/
def ofNumber (n : ℤ) : Date :=
  let century := ((n + 305) * 4 + 3) / 146097
  let julian := n + 305 + century - century / 4
  let year := (julian * 4 + 3) / 1461
  ofMarch year (julian - 365 * year - year / 4)

theorem ofNumber_spec (n : ℤ) : (ofNumber n).Valid ∧ (ofNumber n).number = n := by
  unfold ofNumber
  dsimp only
  generalize hcentury : ((n + 305) * 4 + 3) / 146097 = century
  generalize hjulian : n + 305 + century - century / 4 = julian
  generalize hyear : (julian * 4 + 3) / 1461 = year
  have hhundred : year / 100 = century := by omega
  have hdays : 0 ≤ julian - 365 * year - year / 4 ∧ julian - 365 * year - year / 4 ≤ 365 := by omega
  -- a year before a leap year of the Julian calendar that ends a century is in the last of four
  -- centuries
  have hleap : julian - 365 * year - year / 4 = 365 → IsLeap (year + 1) := by
    unfold IsLeap
    omega
  refine ⟨ofMarch_valid hdays hleap, (ofMarch_number hdays).2.trans ?_⟩
  unfold daysBeforeMarch
  omega

end Date

end Gregorian
