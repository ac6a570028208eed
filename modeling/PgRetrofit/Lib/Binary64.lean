import Mathlib.Tactic
import Mathlib.Data.Int.Log

/-! Doubles as the rational numbers they stand for: the exact result of an operation is rounded to
53 significant bits, to the nearest, ties to even. Overflow and subnormal numbers are not modelled. -/

namespace Binary64

open Int

/-- The nearest integer; of two, the even one. -/
def roundEven (q : ℚ) : ℤ :=
  if q - ⌊q⌋ < 1 / 2 then ⌊q⌋
  else if 1 / 2 < q - ⌊q⌋ then ⌊q⌋ + 1
  else if ⌊q⌋ % 2 = 0 then ⌊q⌋ else ⌊q⌋ + 1

/-- The exponent of the last of the 53 bits. -/
def lastPlace (x : ℚ) : ℤ := Int.log 2 |x| - 52

def round (x : ℚ) : ℚ := roundEven (x / 2 ^ lastPlace x) * 2 ^ lastPlace x

def sub (x y : ℚ) : ℚ := round (x - y)

def mul (x y : ℚ) : ℚ := round (x * y)

def div (x y : ℚ) : ℚ := round (x / y)

/-- The conversion to an integer type, towards zero. -/
def truncate (x : ℚ) : ℤ := if 0 ≤ x then ⌊x⌋ else ⌈x⌉

theorem abs_roundEven_sub_le (q : ℚ) : |(roundEven q : ℚ) - q| ≤ 1 / 2 := by
  have hlow := floor_le q
  have hhigh := lt_floor_add_one q
  rw [abs_le]
  unfold roundEven
  split_ifs <;> push_cast <;> constructor <;> linarith

theorem abs_round_sub_le (x : ℚ) : |round x - x| ≤ |x| / 2 ^ 53 := by
  rcases eq_or_ne x 0 with rfl | hx
  · simp [round, roundEven]
  have hpos : (0 : ℚ) < 2 ^ lastPlace x := zpow_pos two_pos _
  have hlog : (2 : ℚ) ^ log 2 |x| ≤ |x| := zpow_log_le_self (by norm_num) (abs_pos.2 hx)
  have hplace : (2 : ℚ) ^ lastPlace x = 2 ^ log 2 |x| / 2 ^ 52 := by
    rw [lastPlace, zpow_sub₀ two_ne_zero]
    norm_num
  have hround := abs_roundEven_sub_le (x / 2 ^ lastPlace x)
  calc |round x - x| = |((roundEven (x / 2 ^ lastPlace x) : ℚ) - x / 2 ^ lastPlace x) *
      2 ^ lastPlace x| := by
        rw [round, sub_mul, div_mul_cancel₀ _ hpos.ne']
    _ = |(roundEven (x / 2 ^ lastPlace x) : ℚ) - x / 2 ^ lastPlace x| * 2 ^ lastPlace x := by
      rw [abs_mul, abs_of_pos hpos]
    _ ≤ 1 / 2 * 2 ^ lastPlace x := mul_le_mul_of_nonneg_right hround hpos.le
    _ = 2 ^ log 2 |x| / 2 ^ 53 := by
        rw [hplace]
        ring
    _ ≤ |x| / 2 ^ 53 := by gcongr

/-- The error of one operation on numbers of ordinary size. -/
theorem abs_round_sub_le_of_le {x : ℚ} (hx : |x| ≤ 2 ^ 16) : |round x - x| ≤ 1 / 2 ^ 37 := by
  refine (abs_round_sub_le x).trans ?_
  rw [div_le_div_iff₀ (by positivity) (by positivity)]
  calc |x| * 2 ^ 37 ≤ 2 ^ 16 * 2 ^ 37 := by gcongr
    _ = 1 * 2 ^ 53 := by norm_num

theorem truncate_bounds (x : ℚ) : |(truncate x : ℚ) - x| < 1 := by
  rw [truncate, abs_lt]
  split_ifs with hx
  · have hlow := floor_le x
    have hhigh := lt_floor_add_one x
    constructor <;> linarith
  · have hlow := le_ceil x
    have hhigh := ceil_lt_add_one x
    constructor <;> linarith

end Binary64
