import PgRetrofit.Lib.Positional

/-! Long division in any base (Knuth, Algorithm D): the estimate of a quotient digit from the leading
digits is right or one too large, and the digits found one by one are those of the quotient. -/

namespace LongDivision

open Positional Int

variable {b : ℤ} {k : ℕ}

/-- `qhat` is the greatest digit whose multiple of the leading digits `t` of the divisor is at most the
leading digits `s` of the dividend. -/
structure Estimate (b t s qhat : ℤ) : Prop where
  nonneg : 0 ≤ qhat
  lt : qhat < b
  le : qhat * t ≤ s
  greatest : qhat + 1 = b ∨ s < (qhat + 1) * t

/-- The estimate for `u / v`, where `p` is the weight of the leading digits and `b * p ≤ v`. -/
theorem Estimate.bounds {t s qhat p r u v : ℤ} (h : Estimate b t s qhat) (hv : v = t * p + r)
    (hr : 0 ≤ r ∧ r < p) (hbase : b * p ≤ v) (hu : s * p ≤ u ∧ u < (s + 1) * p) (hquot : u < v * b) :
    (qhat - 1) * v ≤ u ∧ u < (qhat + 1) * v := by
  have hp : 0 < p := by omega
  constructor
  · have hrest : qhat * r ≤ b * p := mul_le_mul h.lt.le hr.2.le hr.1 (h.nonneg.trans h.lt.le)
    have hlead : qhat * t * p ≤ s * p := mul_le_mul_of_nonneg_right h.le hp.le
    rw [hv] at hbase ⊢
    nlinarith [hu.1]
  rcases h.greatest with hlast | hnext
  · rw [hlast]
    linarith
  · have hrest : 0 ≤ (qhat + 1) * r := mul_nonneg (by linarith [h.nonneg]) hr.1
    rw [hv]
    nlinarith [hu.2]

/-- where the division stands after the first `k` digits of the dividend `u` -/
structure Divided (b v : ℤ) (u : List ℤ) (k : ℕ) (quotient : List ℤ) (rest : ℤ) : Prop where
  digits : Digits b quotient
  range : 0 ≤ rest ∧ rest < v
  value : value b (u.take k) = value b quotient * v + rest

theorem Divided.step {v rest q rest' : ℤ} {u quotient : List ℤ} (h : Divided b v u k quotient rest)
    (hk : k < u.length) (hq : 0 ≤ q ∧ q < b) (hrest' : 0 ≤ rest' ∧ rest' < v)
    (hdiv : rest * b + u[k] = q * v + rest') : Divided b v u (k + 1) (quotient ++ [q]) rest' where
  digits := h.digits.append (List.forall_mem_singleton.2 hq)
  range := hrest'
  value := by
    rw [List.take_add_one, List.getElem?_eq_getElem hk, Option.toList_some, value_concat,
      value_concat, h.value]
    linear_combination hdiv

theorem Divided.quotient_eq {v rest : ℤ} {u quotient : List ℤ} (h : Divided b v u k quotient rest) :
    Positional.value b quotient = Positional.value b (u.take k) / v := by
  obtain ⟨hnonneg, hlt⟩ := h.range
  rw [h.value, add_comm, add_mul_ediv_right _ _ (by omega), ediv_eq_zero_of_lt hnonneg hlt, zero_add]

/-- A factor that makes the first digit of the divisor at least half of the base leaves its length. -/
theorem scale_factor {d v1 : ℤ} (hb : b % 2 = 0) (hv1 : 0 < v1 ∧ v1 < b / 2) (hd : d = b / (v1 + 1)) :
    0 < d ∧ (v1 + 1) * d ≤ b ∧ b / 2 ≤ v1 * d := by
  have hdiv := mul_ediv_add_emod b (v1 + 1)
  have hmod := emod_lt_of_pos b (show 0 < v1 + 1 by omega)
  have hmod0 := emod_nonneg b (show v1 + 1 ≠ 0 by omega)
  rw [← hd] at hdiv
  have hd2 : 2 ≤ d := by
    rw [hd, Int.le_ediv_iff_mul_le (by omega)]
    omega
  -- twice `v1 * d` is at least `b - 1`
  have hprod : v1 + d ≤ v1 * d + 1 := by nlinarith [hv1.1]
  have htwice : b ≤ 2 * (v1 * d) + 1 := by linarith
  omega

end LongDivision
