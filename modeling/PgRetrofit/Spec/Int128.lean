import PgRetrofit.Spec.Timestamp

/-! `int128.h` without a native 128-bit type, and the comparison of intervals in it. -/

namespace Pg.Int128

open Timestamp

abbrev IsUint64 (x : ℤ) : Prop := 0 ≤ x ∧ x < 2 ^ 64

def toUint64 (x : ℤ) : ℤ := x % 2 ^ 64

structure INT128 where
  hi : ℤ
  lo : ℤ
  hi_range : IsInt64 hi
  lo_range : IsUint64 lo

/-- An assignment converts to the type of the member. -/
def INT128.of (hi lo : ℤ) : INT128 :=
  ⟨toInt64 hi, toUint64 lo, by unfold toInt64; omega, by unfold toUint64; omega⟩

/-- the represented integer -/
def INT128.val (i : INT128) : ℤ := i.hi * 2 ^ 64 + i.lo

/-- native arithmetic: the exact result, wrapped to 128 bits -/
def toInt128 (x : ℤ) : ℤ := (x + 2 ^ 127) % 2 ^ 128 - 2 ^ 127

/-- A carry is told from the sign bits, which the casts to `int64` show. -/
def int128AddUint64 (i : INT128) (v : ℤ) : INT128 :=
  let lo := toUint64 (i.lo + v)
  .of (i.hi + if toInt64 v < 0 ∧ toInt64 i.lo < 0 ∨ (toInt64 v < 0 ∨ toInt64 i.lo < 0) ∧
    toInt64 lo ≥ 0 then 1 else 0) lo

def int128AddInt64 (i : INT128) (v : ℤ) : INT128 :=
  let lo := toUint64 (i.lo + v)
  .of (i.hi + if v ≥ 0 then if toInt64 i.lo < 0 ∧ toInt64 lo ≥ 0 then 1 else 0
    else if ¬ (toInt64 i.lo < 0 ∨ toInt64 lo ≥ 0) then -1 else 0) lo

def int64Au32 (i64 : ℤ) : ℤ := i64 / 2 ^ 32

def int64Al32 (i64 : ℤ) : ℤ := i64 % 2 ^ 32

/-- the second and the third term, sign-extended only if `s` is negative -/
def addMiddle (i : INT128) (s tmp : ℤ) : INT128 :=
  int128AddUint64 (.of (i.hi + if s < 0 then int64Au32 tmp else toUint64 tmp / 2 ^ 32) i.lo)
    (toUint64 (int64Al32 tmp * 2 ^ 32))

def int128AddInt64MulInt64 (i : INT128) (x y : ℤ) : INT128 :=
  if x ≠ 0 ∧ y ≠ 0 then
    let i := .of (i.hi + toInt64 (int64Au32 x * int64Au32 y)) i.lo
    let i := addMiddle i x (toInt64 (int64Au32 x * int64Al32 y))
    let i := addMiddle i y (toInt64 (int64Al32 x * int64Au32 y))
    int128AddUint64 i (toUint64 (int64Al32 x * int64Al32 y))
  else i

def int128Compare (x y : INT128) : Ordering :=
  if x.hi < y.hi then .lt
  else if x.hi > y.hi then .gt
  else if x.lo < y.lo then .lt
  else if x.lo > y.lo then .gt
  else .eq

def int64ToInt128 (v : ℤ) : INT128 := .of (if v < 0 then -1 else 0) v

/-- The days of `interval_cmp_value`. -/
def intervalDays (interval : Interval) : ℤ :=
  toInt64 (toInt64 (interval.time.tdiv usecsPerDay + interval.month * 30) + interval.day)

def intervalCmpEmulated (interval : Interval) : INT128 :=
  int128AddInt64MulInt64 (int64ToInt128 (interval.time.tmod usecsPerDay))
    (intervalDays interval) usecsPerDay

def intervalCmpNative (interval : Interval) : ℤ :=
  toInt128 (interval.time.tmod usecsPerDay + toInt128 (intervalDays interval * usecsPerDay))

def Fits (i : Interval) : Prop := IsInt64 i.time ∧ IsInt32 i.day ∧ IsInt32 i.month

def exactValue (i : Interval) : ℤ := (i.month * 30 + i.day) * usecsPerDay + i.time

end Pg.Int128
