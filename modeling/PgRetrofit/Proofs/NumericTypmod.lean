import PgRetrofit.Sanity.NumericRound

/-! `apply_typmod` rounds to the scale and reports an overflow just if the rounded value has too
many digits. -/

namespace Pg.Numeric

open Positional Rounding List Result Int

/-- The count is right: a power of ten is reached just if it has fewer zeros than there are digits. -/
theorem trueDdigits_spec {digits : List ℤ} (h : Digits nbase digits) (weight m : ℤ) :
    (∃ d ∈ trueDdigits digits ((weight + 1) * 4), d > m) ↔ (10 : ℚ) ^ m ≤ magnitudeOf digits weight := by
  induction digits generalizing weight with
  | nil => simp [trueDdigits, magnitudeOf_nil, zpow_pos]
  | cons dig ds ih => ?_
  obtain ⟨hdig, hds⟩ := forall_mem_cons.1 h
  rw [trueDdigits, magnitudeOf_cons]
  by_cases hzero : dig = 0
  · rw [if_pos hzero, hzero, cast_zero, zero_mul, zero_add, ← ih hds, decDigits,
      show (weight + 1) * 4 - 4 = (weight - 1 + 1) * 4 by ring]
  -- the digit itself has `k + 1` decimal digits
  obtain ⟨k, hk, hlow, hhigh⟩ :
    ∃ k : ℕ, (if dig < 10 then (weight + 1) * 4 - 3 else if dig < 100 then (weight + 1) * 4 - 2
      else if dig < 1000 then (weight + 1) * 4 - 1 else (weight + 1) * 4) = weight * 4 + k + 1 ∧
        10 ^ k ≤ dig ∧ dig + 1 ≤ 10 ^ (k + 1) := by
    rw [nbase] at hdig
    split_ifs
    · exact ⟨0, by omega, by omega, by omega⟩
    · exact ⟨1, by omega, by omega, by omega⟩
    · exact ⟨2, by omega, by omega, by omega⟩
    · exact ⟨3, by omega, by omega, by omega⟩
  have hrest := magnitudeOf_nonneg hds (weight - 1)
  have hlt := magnitudeOf_lt hds (weight - 1)
  rw [sub_add_cancel] at hlt
  have hpow (e : ℤ) : (10 : ℚ) ^ (weight * 4 + e) = 10 ^ e * 10000 ^ weight := by
    rw [pow_ten_four, add_comm, zpow_add₀ (by norm_num), mul_comm weight]
  have hlow' : (10 : ℚ) ^ (k : ℤ) * 10000 ^ weight ≤ dig * 10000 ^ weight :=
    mul_le_mul_of_nonneg_right (by exact_mod_cast hlow) (by positivity)
  have hhigh' : (dig + 1 : ℚ) * 10000 ^ weight ≤ 10 ^ (k + 1 : ℤ) * 10000 ^ weight :=
    mul_le_mul_of_nonneg_right (by exact_mod_cast hhigh) (by positivity)
  simp only [if_neg hzero, hk, Option.mem_some_iff, exists_eq_left']
  constructor
  · intro hm
    have hprev : (10 : ℚ) ^ m ≤ 10 ^ (weight * 4 + k) := zpow_le_zpow_right₀ (by norm_num) (by omega)
    rw [hpow] at hprev
    linarith
  · intro hle
    by_contra hm
    have hnext : (10 : ℚ) ^ (weight * 4 + (k + 1)) ≤ 10 ^ m :=
      zpow_le_zpow_right₀ (by norm_num) (by omega)
    rw [hpow] at hnext
    linarith

/-- The value is rounded, and the overflow is reported just if the rounded value is too large. -/
theorem applyTypmod_spec {var : NumericVar} {spare : List (Option ℤ)} {typmod precision scale : ℤ}
    (hvar : var.Valid) (hspare : var.spare = some 0 :: spare)
    (htypmod : typmod = precision * 2 ^ 16 + scale + 4) (hscale : 0 ≤ scale ∧ scale ≤ precision)
    (hprecision : precision < 2 ^ 15) (hfits : Fits var.weight scale)
    (hplaces : ∀ result, roundVar var scale = .ok result → IsInt ((result.weight + 1) * 4)) :
    applyTypmod var typmod = .error (fieldOverflow precision scale) ∧
      10 ^ (precision - scale) ≤ |roundAt scale var.toRat| ∨
      ∃ result, applyTypmod var typmod = .ok result ∧ result.toRat = roundAt scale var.toRat ∧
        |roundAt scale var.toRat| < 10 ^ (precision - scale) := by
  obtain ⟨result, hrun, hrounded⟩ := roundVar_spec hvar.digits hspare hfits
  have hrat : result.toRat = roundAt scale var.toRat := hrounded.toRat hvar.digits halfUp_zero
  have hspec : _ ↔ 10 ^ (precision - scale) ≤ result.magnitude :=
    trueDdigits_spec hrounded.digits result.weight (precision - scale)
  have hint := hplaces result hrun
  have hint' : IsInt (result.weight + 1) := by
    unfold IsInt intMax at *
    omega
  rw [applyTypmod, if_neg (by omega)]
  dsimp only
  rw [show (typmod - 4) / 2 ^ 16 % 2 ^ 16 =
    precision by
      omega, show (typmod - 4) % 2 ^ 16 = scale by omega, hrun, ok_bind, int_ok hint', ok_bind,
    decDigits, int_ok hint, ok_bind, ← hrat, abs_toRat hrounded.digits]
  split_ifs with hover
  · exact .inl ⟨rfl, hspec.1 hover.2⟩
  refine .inr ⟨result, rfl, rfl, not_le.1 fun hle => hover ⟨?_, hspec.2 hle⟩⟩
  -- the weight bounds the value
  by_contra hsmall
  have hlt : result.magnitude < _ := magnitudeOf_lt hrounded.digits result.weight
  rw [pow_ten_four] at hlt
  have hpow : (10 : ℚ) ^ (4 * (result.weight + 1)) ≤ 10 ^ (precision - scale) :=
    zpow_le_zpow_right₀ (by norm_num) (by omega)
  linarith

/-- -99.994 as `numeric(4, 2)` -/
theorem applyTypmod_spec_down :
    ∃ result, applyTypmod ⟨[some 0], [99, 9940], 0, .neg, 3⟩ 262150 = .ok result ∧
    result.toRat = roundAt 2 (NumericVar.toRat ⟨[some 0], [99, 9940], 0, .neg, 3⟩) := by
  have hvar : NumericVar.Valid ⟨[some 0], [99, 9940], 0, .neg, 3⟩ := ⟨by decide, nofun⟩
  have hround : roundVar ⟨[some 0], [99, 9940], 0, .neg, 3⟩ 2 =
    .ok ⟨[some 0], [99, 9900], 0, .neg, 2⟩ := by decide
  rcases applyTypmod_spec hvar rfl (show 262150 = 4 * 2 ^ 16 + 2 + 4 from rfl) (by decide) (by decide)
    ⟨by decide, by decide, by decide⟩
    fun result h => Except.ok.inj (hround.symm.trans h) ▸ by
      decide with ⟨herror, -⟩ | ⟨result, hrun, hrat, -⟩
  · exact absurd herror (by decide)
  · exact ⟨result, hrun, hrat⟩

/-- Without a spare digit the carry leaves the buffer, and the decimal digits of a large weight are
no `int`. -/
theorem applyTypmod_limits :
    applyTypmod ⟨[], [9999, 5000], 0, .pos, 1⟩ (5 * 2 ^ 16 + 4) = .error (.backend .outOfBounds) ∧
    applyTypmod ⟨[some 0], [1], 2 ^ 29, .pos, 0⟩ (5 * 2 ^ 16 + 4) = .error .intOverflow := by
  decide

end Pg.Numeric
