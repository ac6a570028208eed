import Mathlib.Tactic

/-! Rounding half away from zero, and towards zero, at a decimal place. -/

namespace Rounding

open Int

/-- `f` for the distance from zero, with the sign of `x` -/
def away (f : ℚ → ℤ) (x : ℚ) : ℤ := if x < 0 then -f |x| else f |x|

/-- the nearest integer, the greater of two -/
def halfUp (y : ℚ) : ℤ := ⌊y + 1 / 2⌋

/-- the nearest multiple of `1 / 10 ^ scale`, the one further from zero of two -/
def roundAt (scale : ℤ) (x : ℚ) : ℚ := away halfUp (x * 10 ^ scale) / 10 ^ scale

/-- the nearest multiple of `1 / 10 ^ scale` that is no further from zero -/
def truncAt (scale : ℤ) (x : ℚ) : ℚ := away (fun y => ⌊y⌋) (x * 10 ^ scale) / 10 ^ scale

variable {f : ℚ → ℤ} {x m p q : ℤ} {y : ℚ} {scale g : ℤ}

theorem away_of_nonneg (h : 0 ≤ y) : away f y = f y := by
  rw [away, if_neg (not_lt.2 h), abs_of_nonneg h]

theorem away_neg (hf : f 0 = 0) (h : 0 ≤ y) : away f (-y) = -f y := by
  rcases h.eq_or_lt with rfl | hpos
  · simp [away, hf]
  · rw [away, if_pos (by linarith), abs_neg, abs_of_nonneg h]

theorem halfUp_intCast (z : ℤ) : halfUp z = z := by
  rw [halfUp, floor_eq_iff]
  constructor <;> linarith

theorem halfUp_eq_zero (h0 : 0 ≤ y) (h : y < 1 / 2) : halfUp y = 0 := by
  rw [halfUp, floor_eq_iff]
  constructor <;> norm_num <;> linarith

theorem away_halfUp_intCast (z : ℤ) : away halfUp z = z := by
  rcases le_total 0 z with hz | hz
  · rw [away_of_nonneg (by exact_mod_cast hz), halfUp_intCast]
  obtain ⟨y, rfl⟩ : ∃ y, z = -y := ⟨-z, by ring⟩
  have hy : (0 : ℚ) ≤ (y : ℚ) := by
    have : 0 ≤ y := by omega
    exact_mod_cast this
  rw [cast_neg, away_neg (halfUp_eq_zero le_rfl (by norm_num)) hy, halfUp_intCast]

theorem roundAt_of_integer {z : ℤ} (h : y * 10 ^ scale = z) : roundAt scale y = y := by
  have hpow : (10 : ℚ) ^ scale ≠ 0 := zpow_ne_zero _ (by norm_num)
  rw [roundAt, h, away_halfUp_intCast, ← h, mul_div_cancel_right₀ _ hpow]

theorem floor_div (hm : 0 < m) : ⌊(x : ℚ) / m⌋ = x / m := by
  obtain ⟨n, rfl⟩ := eq_ofNat_of_zero_le hm.le
  exact_mod_cast Rat.floor_intCast_div_natCast x n

/-- Half up is the quotient, one more if the remainder is at least half. -/
theorem floor_div_add_half (hm : 0 < m) (heven : m % 2 = 0) :
    ⌊(x : ℚ) / m + 1 / 2⌋ = x / m + if m / 2 ≤ x % m then 1 else 0 := by
  obtain ⟨h, rfl⟩ : ∃ h, m = 2 * h := ⟨m / 2, by omega⟩
  have hsum : (x : ℚ) / (2 * h : ℤ) + 1 / 2 = ((x + h : ℤ) : ℚ) / (2 * h : ℤ) := by
    have hh : (h : ℚ) ≠ 0 := by
      have : h ≠ 0 := by omega
      exact_mod_cast this
    push_cast
    field_simp
  rw [hsum, floor_div hm, show 2 * h / 2 = h by omega]
  have hdiv := mul_ediv_add_emod x (2 * h)
  have hnonneg := emod_nonneg x hm.ne'
  have hlt := emod_lt_of_pos x hm
  split
  all_goals
    rw [ediv_eq_iff_of_pos hm]
    constructor <;> nlinarith

/-- A place may be taken of what is truncated at a later place. -/
theorem floor_floor_div (hg : 0 < g) (y : ℚ) : ⌊(⌊y * g⌋ : ℚ) / g⌋ = ⌊y⌋ := by
  have hne : (g : ℚ) ≠ 0 := by exact_mod_cast hg.ne'
  rw [floor_div hg, ← floor_div_cast_of_nonneg hg.le, mul_div_cancel_right₀ _ hne]

/-- So may half up, if the later place has the half. -/
theorem halfUp_floor_div (hg : 0 < g) (heven : g % 2 = 0) (y : ℚ) :
    halfUp ((⌊y * g⌋ : ℚ) / g) = halfUp y := by
  obtain ⟨h, rfl⟩ : ∃ h, g = 2 * h := ⟨g / 2, by omega⟩
  have hne : ((2 * h : ℤ) : ℚ) ≠ 0 := by exact_mod_cast hg.ne'
  have hhalf : (h : ℚ) = 1 / 2 * ((2 * h : ℤ) : ℚ) := by
    push_cast
    ring
  have hshift : (⌊y * (2 * h : ℤ)⌋ : ℚ) / (2 * h : ℤ) + 1 / 2 =
      (⌊(y + 1 / 2) * (2 * h : ℤ)⌋ : ℚ) / (2 * h : ℤ) := by
    rw [add_mul, ← hhalf, floor_add_intCast, cast_add, add_div, hhalf, mul_div_cancel_right₀ _ hne]
  rw [halfUp, hshift, floor_floor_div hg, halfUp]

/-- The first digit of the remainder tells whether it is at least half. -/
theorem half_le_emod_iff (hp0 : 0 < p) (hp : p % 2 = 0) (hq : 0 < q) : p * q / 2 ≤ x % (p * q) ↔
    p / 2 ≤ x / q % p := by
  have hq1 := mul_ediv_add_emod x q
  have hp1 := mul_ediv_add_emod (x / q) p
  have hz0 := emod_nonneg x hq.ne'
  have hz1 := emod_lt_of_pos x hq
  have hy0 := emod_nonneg (x / q) hp0.ne'
  have hy1 := emod_lt_of_pos (x / q) hp0
  have hsplit : x % (p * q) = q * (x / q % p) + x % q := by
    have hx : x = q * (x / q % p) + x % q + p * q * (x / q / p) := by linear_combination -hq1 - q * hp1
    conv_lhs => rw [hx]
    rw [add_mul_emod_self_left, emod_eq_of_lt (by positivity) (by nlinarith)]
  obtain ⟨h, rfl⟩ : ∃ h, p = 2 * h := ⟨p / 2, by omega⟩
  rw [show 2 * h * q / 2 =
    h * q by rw [mul_assoc]; exact mul_ediv_cancel_left _ two_ne_zero, show 2 * h / 2 = h by omega]
  constructor
  · intro hle
    nlinarith
  · intro hle
    nlinarith

theorem away_neg_eq (hf : f 0 = 0) (y : ℚ) : away f (-y) = -away f y := by
  rcases le_total 0 y with hy | hy
  · rw [away_neg hf hy, away_of_nonneg hy]
  · obtain ⟨z, rfl⟩ : ∃ z, y = -z := ⟨-y, by ring⟩
    rw [neg_neg, away_of_nonneg (by linarith), away_neg hf (by linarith), neg_neg]

theorem away_div_neg (hf : f 0 = 0) (scale : ℤ) (y : ℚ) :
    (away f (-y * 10 ^ scale) : ℚ) / 10 ^ scale = -((away f (y * 10 ^ scale) : ℚ) / 10 ^ scale) := by
  rw [neg_mul, away_neg_eq hf, cast_neg, neg_div]

theorem halfUp_zero : halfUp 0 = 0 := halfUp_eq_zero le_rfl (by norm_num)

theorem truncAt_of_nonneg (scale : ℤ) (h : 0 ≤ y) : truncAt scale y = ⌊y * 10 ^ scale⌋ / 10 ^ scale := by
  rw [truncAt, away_of_nonneg (mul_nonneg h (zpow_nonneg (by norm_num) _))]

/-- In units of `scale`, the later place has `10 ^ e` units. -/
theorem truncAt_scaled (e : ℕ) (h : 0 ≤ y) :
    truncAt (scale + e) y * 10 ^ scale = (⌊y * 10 ^ scale * ((10 ^ e : ℤ) : ℚ)⌋ : ℚ) /
      ((10 ^ e : ℤ) : ℚ) := by
  have hpow : (10 : ℚ) ^ (scale + e) = 10 ^ scale * ((10 ^ e : ℤ) : ℚ) := by
    rw [zpow_add₀ (by norm_num)]
    push_cast
    rfl
  rw [truncAt_of_nonneg _ h, hpow]
  field_simp

theorem truncAt_nonneg (scale : ℤ) (h : 0 ≤ y) : 0 ≤ truncAt scale y := by
  have hpow : (0 : ℚ) < 10 ^ scale := zpow_pos (by norm_num) _
  have hfloor : (0 : ℚ) ≤ ⌊y * 10 ^ scale⌋ := by exact_mod_cast floor_nonneg.2 (mul_nonneg h hpow.le)
  rw [truncAt_of_nonneg scale h]
  exact div_nonneg hfloor hpow.le

theorem truncAt_neg (scale : ℤ) (y : ℚ) : truncAt scale (-y) = -truncAt scale y :=
  away_div_neg floor_zero scale y

theorem roundAt_neg (scale : ℤ) (y : ℚ) : roundAt scale (-y) = -roundAt scale y :=
  away_div_neg halfUp_zero scale y

theorem roundAt_truncAt (scale : ℤ) (e : ℕ) (y : ℚ) :
    roundAt scale (truncAt (scale + (e + 1 : ℕ)) y) = roundAt scale y := by
  wlog hy : 0 ≤ y
  · have hneg := this scale e (-y) (by linarith)
    rwa [truncAt_neg, roundAt_neg, roundAt_neg, neg_inj] at hneg
  have hscale : (0 : ℚ) ≤ 10 ^ scale := zpow_nonneg (by norm_num) _
  have heven : (10 ^ (e + 1) : ℤ) % 2 = 0 := by
    rw [pow_succ, mul_emod]
    simp
  rw [roundAt, roundAt, away_of_nonneg (mul_nonneg (truncAt_nonneg _ hy) hscale),
    away_of_nonneg (mul_nonneg hy hscale), truncAt_scaled (e + 1) hy,
    halfUp_floor_div (by positivity) heven]

theorem truncAt_truncAt (scale : ℤ) (e : ℕ) (y : ℚ) :
    truncAt scale (truncAt (scale + e) y) = truncAt scale y := by
  wlog hy : 0 ≤ y
  · have hneg := this scale e (-y) (by linarith)
    rwa [truncAt_neg, truncAt_neg, truncAt_neg, neg_inj] at hneg
  rw [truncAt_of_nonneg scale (truncAt_nonneg _ hy), truncAt_of_nonneg scale hy, truncAt_scaled e hy,
    floor_floor_div (by positivity)]

/-- What is cut off is less than one and has the sign of the whole. -/
theorem sub_truncAt_zero (y : ℚ) :
    |y - truncAt 0 y| < 1 ∧ (y - truncAt 0 y = 0 ∨ 0 < (y - truncAt 0 y) * y) := by
  wlog h : 0 ≤ y
  · have hneg := this (-y) (by linarith)
    rwa [truncAt_neg, ← neg_sub', abs_neg, neg_eq_zero, neg_mul_neg] at hneg
  have hlow := floor_le y
  have hhigh := lt_floor_add_one y
  have hfloor : (0 : ℚ) ≤ ⌊y⌋ := by exact_mod_cast floor_nonneg.2 h
  rw [truncAt_of_nonneg 0 h, zpow_zero, mul_one, div_one]
  refine ⟨abs_lt.2 ⟨by linarith, by linarith⟩, ?_⟩
  rcases hlow.eq_or_lt with heq | hlt
  · exact .inl (by rw [heq, sub_self])
  · exact .inr (mul_pos (by linarith) (by linarith))

/-- the remainder of the truncating division -/
theorem truncAt_remainder {x y : ℚ} (hy : y ≠ 0) (r : ℚ) :
    r = x - truncAt 0 (x / y) * y ↔ x = truncAt 0 (x / y) * y + r ∧ |r| < |y| ∧ (r = 0 ∨ 0 < r * x) := by
  refine ⟨?_, fun h => by linarith [h.1]⟩
  rintro rfl
  obtain ⟨t, rfl⟩ : ∃ t, x = t * y := ⟨x / y, (div_mul_cancel₀ x hy).symm⟩
  obtain ⟨hlt, hsign⟩ := sub_truncAt_zero t
  rw [mul_div_cancel_right₀ t hy, ← sub_mul, abs_mul, mul_mul_mul_comm]
  refine ⟨by ring, mul_lt_of_lt_one_left (abs_pos.2 hy) hlt,
    hsign.imp (fun hzero => by rw [hzero, zero_mul]) fun hpos => ?_⟩
  exact mul_pos hpos (mul_self_pos.2 hy)

end Rounding
