import PgRetrofit.Lib.Rounding
import PgRetrofit.Sanity.NumericValue

/-! `round_var` rounds half away from zero, `trunc_var` towards zero. -/

namespace Pg.Numeric

open Positional Rounding List Result Int NumericVar

variable {var : NumericVar} {rscale : ℤ}

/-- the number of decimal digits up to `rscale` is an `int` -/
structure Fits (weight rscale : ℤ) : Prop where
  places : IsInt ((weight + 1) * 4)
  lower : -intMax - 1 ≤ (weight + 1) * 4 + rscale
  upper : (weight + 1) * 4 + rscale + 3 ≤ intMax

theorem decimalDigits_ok (h : Fits var.weight rscale) :
    decimalDigits var rscale = .ok ((var.weight + 1) * 4 + rscale) := by
  obtain ⟨⟨hlow, hhigh⟩, hlower, hupper⟩ := h
  have hfirst : IsInt (var.weight + 1) := by
    unfold IsInt intMax at *
    omega
  have hlast : IsInt ((var.weight + 1) * 4 + rscale) := ⟨hlower, by omega⟩
  rw [decimalDigits, int_ok hfirst, ok_bind, decDigits, int_ok ⟨hlow, hhigh⟩, ok_bind, int_ok hlast]

theorem int_places_ok (h : Fits var.weight rscale) (hdi : 0 ≤ (var.weight + 1) * 4 + rscale) :
    int ((var.weight + 1) * 4 + rscale + decDigits - 1) = .ok ((var.weight + 1) * 4 + rscale + 3) := by
  have heq : (var.weight + 1) * 4 + rscale + decDigits - 1 = (var.weight + 1) * 4 + rscale + 3 := by
    rw [decDigits]
    ring
  rw [heq, int_ok ⟨?_, h.upper⟩]
  rw [intMax]
  omega

theorem propagateCarry_spec {ds : List ℤ} (h : Digits nbase ds) :
    Digits nbase (propagateCarry ds).1 ∧ (propagateCarry ds).1.length = ds.length ∧
      value nbase (propagateCarry ds).1.reverse + (if (propagateCarry ds).2 then nbase ^ ds.length
        else 0) = value nbase ds.reverse + 1 := by
  induction ds with
  | nil => simp [propagateCarry, h]
  | cons d ds ih => ?_
  obtain ⟨hd, hds⟩ := forall_mem_cons.1 h
  obtain ⟨hdigits, hlength, hvalue⟩ := ih hds
  rw [propagateCarry]
  split
  next hge =>
    refine ⟨hdigits.cons ⟨by omega, by omega⟩, by simp [hlength], ?_⟩
    simp only [reverse_cons, value_concat, length_cons, pow_succ]
    split at hvalue
    next hcarry =>
      rw [hcarry, if_pos rfl]
      linear_combination nbase * hvalue
    next hcarry =>
      rw [if_neg hcarry]
      linear_combination nbase * hvalue
  next hlt =>
    refine ⟨Digits.cons ⟨by omega, by omega⟩ hds, rfl, ?_⟩
    simp only [reverse_cons, value_concat]
    rw [if_neg (by decide)]
    ring

/-- the digits `init` plus the carry, followed by `last` -/
structure RoundedUp (var : NumericVar) (init last : List ℤ) (carry : Bool)
    (result : NumericVar) : Prop where
  digits : Digits nbase result.digits
  value : value nbase result.digits = (value nbase init + if carry then 1
    else 0) * nbase ^ last.length + value nbase last
  lowest : result.weight - result.digits.length = var.weight - (init.length + last.length)
  sign : result.sign = var.sign
  dscale : result.dscale = var.dscale

variable {spare : List (Option ℤ)}

theorem roundUp_spec (var : NumericVar) {init last : List ℤ} (hinit : Digits nbase init)
    (hlast : Digits nbase last) (carry : Bool) (hspare : var.spare = some 0 :: spare) :
    ∃ result, roundUp var init last carry = .ok result ∧ RoundedUp var init last carry result := by
  cases carry with
  | false => exact ⟨_, rfl, ⟨hinit.append hlast, by simp [value_append], by simp, rfl, rfl⟩⟩
  | true => ?_
  have hreverse : Digits nbase init.reverse := fun d hd => hinit d (mem_reverse.1 hd)
  obtain ⟨hdigits, hlength, hvalue⟩ := propagateCarry_spec hreverse
  rw [reverse_reverse] at hvalue
  have hout : Digits nbase (propagateCarry init.reverse).1.reverse :=
    fun d hd => hdigits d (mem_reverse.1 hd)
  rw [roundUp, if_pos rfl]
  dsimp only
  split
  next hcarry =>
    -- the carry goes into the spare digit
    rw [hspare]
    rw [if_pos hcarry] at hvalue
    refine ⟨_, rfl, ⟨(hout.cons ⟨by decide, by decide⟩).append hlast, ?_, ?_, rfl, rfl⟩⟩
    · rw [value_append, value_cons, length_reverse, hlength, if_pos rfl]
      linear_combination nbase ^ last.length * hvalue
    · simp only [length_append, length_cons, length_reverse, hlength]
      push_cast
      ring
  rename_i hcarry
  rw [if_neg hcarry, add_zero] at hvalue
  refine ⟨_, rfl, ⟨hout.append hlast, ?_, ?_, rfl, rfl⟩⟩
  · rw [value_append, hvalue, if_pos rfl]
  · simp only [length_append, length_reverse, hlength]
    push_cast
    ring

/-- The digit keeps its part above `pow10`, one more if the rest is at least half. -/
theorem roundDigit_spec {digit pow10 : ℤ} (hdigit : 0 ≤ digit ∧ digit < nbase) (hpow : 0 < pow10)
    (hdvd : pow10 ∣ nbase) :
    0 ≤ (roundDigit digit pow10).1 ∧ (roundDigit digit pow10).1 < nbase ∧
      (roundDigit digit pow10).1 + (if (roundDigit digit pow10).2 then nbase else 0) =
        digit - digit % pow10 + if pow10 / 2 ≤ digit % pow10 then pow10 else 0 := by
  have hdiv := mul_ediv_add_emod digit pow10
  have hquot : 0 ≤ digit / pow10 := ediv_nonneg hdigit.1 hpow.le
  have hbase : digit - digit % pow10 + pow10 ≤ nbase := by
    obtain ⟨k, hk⟩ := hdvd
    have hlt : digit / pow10 < k := Int.ediv_lt_of_lt_mul hpow (by rw [mul_comm]; omega)
    nlinarith
  have hlow : 0 ≤ digit - digit % pow10 := by nlinarith
  unfold roundDigit
  dsimp only
  split
  next hge =>
    split
    next hup =>
      simp only [if_true]
      omega
    next hup =>
      simp only [Bool.false_eq_true, if_false]
      omega
  next hlt =>
    simp only [Bool.false_eq_true, if_false, and_true]
    omega

theorem pow_ten_four (k : ℤ) : (10000 : ℚ) ^ k = 10 ^ (4 * k) := by
  rw [zpow_mul]
  norm_num

theorem nbase_pow (k : ℕ) : nbase ^ k = 10 ^ (4 * k) := by
  rw [nbase, pow_mul]
  norm_num

theorem scaled_magnitude (digits : List ℤ) (weight rscale : ℤ) :
    magnitudeOf digits weight * 10 ^ rscale =
      value nbase digits * 10 ^ ((weight + 1) * 4 + rscale - 4 * digits.length) := by
  rw [magnitudeOf, pow_ten_four, mul_assoc, ← zpow_add₀ (by norm_num)]
  congr 2
  ring

variable {digits : List ℤ} {e : ℕ} {weight rscale : ℤ}

theorem scaled_lt (h : Digits nbase digits) {k : ℤ} (hk : (weight + 1) * 4 + rscale ≤ k) :
    magnitudeOf digits weight * 10 ^ rscale < 10 ^ k := by
  calc magnitudeOf digits weight * 10 ^ rscale < 10000 ^ (weight + 1) * 10 ^ rscale :=
        mul_lt_mul_of_pos_right (magnitudeOf_lt h weight) (by positivity)
    _ = 10 ^ ((weight + 1) * 4 + rscale) := by
      rw [pow_ten_four, ← zpow_add₀ (by norm_num)]
      congr 1
      ring
    _ ≤ 10 ^ k := zpow_le_zpow_right₀ (by norm_num) hk

theorem scaled_integer (digits : List ℤ) (weight rscale : ℤ)
    (hdi : 4 * (digits.length : ℤ) ≤ (weight + 1) * 4 + rscale) :
    ∃ z : ℤ, magnitudeOf digits weight * 10 ^ rscale = z := by
  obtain ⟨k, hk⟩ := eq_ofNat_of_zero_le (sub_nonneg.2 hdi)
  refine ⟨value nbase digits * 10 ^ k, ?_⟩
  rw [scaled_magnitude, hk]
  push_cast
  rw [zpow_natCast]

theorem scaled_quotient (hdi : (weight + 1) * 4 + rscale + e = 4 * digits.length) :
    magnitudeOf digits weight * 10 ^ rscale = (value nbase digits : ℚ) / ((10 ^ e : ℤ) : ℚ) := by
  rw [scaled_magnitude,
    show (weight + 1) * 4 + rscale - 4 * (digits.length : ℤ) = -(e : ℤ) by omega, zpow_neg, zpow_natCast]
  push_cast
  rfl

/-- `round` at the place, on the distance from zero -/
structure RoundedBy (round : ℚ → ℤ) (var : NumericVar) (rscale : ℤ) (result : NumericVar) : Prop where
  digits : Digits nbase result.digits
  scaled : result.magnitude * 10 ^ rscale = round (var.magnitude * 10 ^ rscale)
  dscale : result.dscale = rscale
  sign : result.sign = var.sign ∨ result.digits = [] ∧ result.sign = .pos

variable {result : NumericVar} {nd : ℕ} {round : ℚ → ℤ} {p : ℤ}

theorem RoundedBy.zero (hround : round (var.magnitude * 10 ^ rscale) = 0) :
    RoundedBy round var rscale
      { var with digits := [], weight := 0, sign := .pos, dscale := rscale } := by
  refine ⟨fun d hd => absurd hd not_mem_nil, ?_, rfl, .inr ⟨rfl, rfl⟩⟩
  rw [hround, magnitude, magnitudeOf_nil]
  simp

/-- No digit is behind the place. -/
theorem RoundedBy.kept (hdigits : Digits nbase var.digits) (hround : ∀ z : ℤ, round z = z)
    (hkeep : 4 * var.digits.length ≤ (var.weight + 1) * 4 + rscale) :
    RoundedBy round var rscale { var with dscale := rscale } := by
  obtain ⟨z, hz⟩ := scaled_integer var.digits var.weight rscale hkeep
  refine ⟨hdigits, ?_, rfl, .inl rfl⟩
  rw [magnitude, magnitude, hz, hround]

/-- With the sign: the value rounds away from zero as its distance does. -/
theorem RoundedBy.toRat (h : RoundedBy round var rscale result) (hdigits : Digits nbase var.digits)
    (hround : round 0 = 0) :
    result.toRat = away round (var.toRat * 10 ^ rscale) / 10 ^ rscale := by
  have hpow : (10 : ℚ) ^ rscale ≠ 0 := by positivity
  have hnonneg : 0 ≤ var.magnitude * 10 ^ rscale :=
    mul_nonneg (magnitudeOf_nonneg hdigits _) (by positivity)
  have hsign : result.toRat = if var.sign = .neg then -result.magnitude else result.magnitude := by
    rw [NumericVar.toRat]
    rcases h.sign with hsame | ⟨hnil, -⟩
    · rw [hsame]
    · have hzero : result.magnitude = 0 := by rw [NumericVar.magnitude, hnil, magnitudeOf_nil]
      simp [hzero]
  rw [eq_div_iff hpow, hsign, NumericVar.toRat]
  split
  next => rw [neg_mul, neg_mul, away_neg hround hnonneg, h.scaled, cast_neg]
  next => rw [away_of_nonneg hnonneg, h.scaled]

theorem value_take_succ {i : ℕ} (h : i < digits.length) :
    value nbase (digits.take (i + 1)) = value nbase (digits.take i) * nbase + digits[i] := by
  rw [take_add_one, getElem?_eq_getElem h, Option.toList_some, value_concat]

/-- what `scaled_quotient` gives for a place `k` digits of weight `p` before the end -/
theorem halfUp_scaled (h : Digits nbase digits)
    (hdi : (weight + 1) * 4 + rscale + e = 4 * digits.length)
    (hpow : 10 ^ e = p * nbase ^ (digits.length - nd)) (hp : 0 < p) (heven : p % 2 = 0) :
    halfUp (magnitudeOf digits weight * 10 ^ rscale) =
      value nbase (digits.take nd) / p + if p / 2 ≤ value nbase (digits.take nd) % p then 1 else 0 := by
  have hq : 0 < nbase ^ (digits.length - nd) := pow_pos nbase_pos _
  have hM : (p * nbase ^ (digits.length - nd)) % 2 = 0 := by
    rw [mul_emod, heven]
    simp
  rw [scaled_quotient hdi, hpow, halfUp, floor_div_add_half (mul_pos hp hq) hM,
    h.value_take nbase_pos nd]
  have hiff := half_le_emod_iff (x := value nbase digits) hp heven hq
  simp only [hiff]
  rw [mul_comm, ediv_ediv_of_nonneg hq.le]

theorem roundUp_whole (hdigits : Digits nbase var.digits) (hdi : (var.weight + 1) * 4 + rscale = 4 * nd)
    (hnd : nd < var.digits.length)
    (h : RoundedUp { var with dscale := rscale } (var.digits.take nd) []
      (decide (var.digits[nd] ≥ halfNbase)) result) :
    RoundedBy halfUp var rscale result := by
  have hdigit := hdigits _ (getElem_mem hnd)
  have hround : halfUp (magnitudeOf var.digits var.weight * 10 ^ rscale) =
      value nbase (var.digits.take (nd + 1)) / nbase + if nbase / 2 ≤
        value nbase (var.digits.take (nd + 1)) % nbase then 1 else 0 := by
    have hpow : (10 : ℤ) ^ (4 * (var.digits.length - nd)) =
        nbase * nbase ^ (var.digits.length - (nd + 1)) := by
      rw [← nbase_pow, ← pow_succ']
      congr 1
      omega
    exact halfUp_scaled hdigits (by omega) hpow nbase_pos (by decide)
  have hmod : (value nbase (var.digits.take nd) * nbase + var.digits[nd]) % nbase = var.digits[nd] := by
    rw [mul_add_emod_self_right, emod_eq_of_lt hdigit.1 hdigit.2]
  have hquot : (value nbase (var.digits.take nd) * nbase + var.digits[nd]) / nbase =
      value nbase (var.digits.take nd) := by
    rw [mul_add_ediv_right _ _ nbase_pos.ne', ediv_eq_zero_of_lt hdigit.1 hdigit.2, add_zero]
  have hexp : (result.weight + 1) * 4 + rscale - 4 * (result.digits.length : ℤ) = 0 := by
    have hlowest := h.lowest
    simp only [length_take, length_nil] at hlowest
    omega
  refine ⟨h.digits, ?_, h.dscale, .inl h.sign⟩
  rw [magnitude, magnitude, hround, scaled_magnitude, hexp, h.value, value_take_succ hnd, hmod, hquot]
  simp only [value_nil, length_nil, pow_zero, mul_one, add_zero, zpow_zero, decide_eq_true_eq]
  rfl

variable {dm : ℤ}

theorem roundPowers_eq (h : 0 < dm ∧ dm < 4) : roundPowers dm = 10 ^ (4 - dm).toNat := by
  obtain rfl | rfl | rfl : dm = 1 ∨ dm = 2 ∨ dm = 3 := by omega
  all_goals decide

theorem roundPowers_spec (h : 0 < dm ∧ dm < 4) :
    0 < roundPowers dm ∧ roundPowers dm % 2 = 0 ∧ roundPowers dm ∣ nbase := by
  obtain rfl | rfl | rfl : dm = 1 ∨ dm = 2 ∨ dm = 3 := by omega
  all_goals decide

/-- The digit that holds the place is a multiple of `pow10`. -/
theorem scaled_of_multiple {dm y : ℤ} (hdm : 0 < dm ∧ dm < 4)
    (hexp : (weight + 1) * 4 + rscale - 4 * (digits.length : ℤ) = dm - 4)
    (hvalue : value nbase digits = roundPowers dm * y) :
    magnitudeOf digits weight * 10 ^ rscale = y := by
  have hcast : ((roundPowers dm : ℤ) : ℚ) = 10 ^ (4 - dm) := by
    rw [roundPowers_eq hdm]
    push_cast
    rw [← zpow_natCast, toNat_of_nonneg (by omega)]
  have hcancel : (10 : ℚ) ^ (4 - dm) * 10 ^ (dm - 4) = 1 := by
    rw [← zpow_add₀ (by norm_num), show 4 - dm + (dm - 4) = 0 by ring, zpow_zero]
  rw [scaled_magnitude, hexp, hvalue]
  push_cast
  rw [hcast]
  linear_combination (y : ℚ) * hcancel

theorem emod_roundPowers (hdm : 0 < dm ∧ dm < 4) (x d : ℤ) :
    (x * nbase + d) % roundPowers dm = d % roundPowers dm := by
  obtain ⟨k, hk⟩ := (roundPowers_spec hdm).2.2
  rw [hk, mul_left_comm, mul_add_emod_self_left]

theorem take_succ_parts (h : nd < digits.length) :
    read (digits.take (nd + 1)) nd = .ok digits[nd] ∧
      (digits.take (nd + 1)).dropLast = digits.take nd := by
  have hkept : nd < (digits.take (nd + 1)).length := by
    rw [length_take]
    omega
  refine ⟨?_, ?_⟩
  · rw [read_ok hkept, getElem_take]
  · rw [dropLast_eq_take, length_take, take_take]
    congr 1
    omega

theorem pow_within (hdm : 0 < dm ∧ dm < 4) (k : ℕ) :
    (10 : ℤ) ^ ((4 - dm).toNat + 4 * k) = roundPowers dm * nbase ^ k := by
  rw [pow_add, nbase_pow, roundPowers_eq hdm]

/-- The place is within the last digit kept. -/
theorem roundUp_within (hdigits : Digits nbase var.digits) (hdm : 0 < dm ∧ dm < 4)
    (hdi : (var.weight + 1) * 4 + rscale = 4 * nd + dm) (hnd : nd < var.digits.length)
    (h : RoundedUp { var with dscale := rscale } (var.digits.take nd)
      [(roundDigit (var.digits[nd]) (roundPowers dm)).1]
        (roundDigit (var.digits[nd]) (roundPowers dm)).2 result) :
    RoundedBy halfUp var rscale result := by
  obtain ⟨hp, heven, hdvd⟩ := roundPowers_spec hdm
  obtain ⟨-, -, hsum⟩ := roundDigit_spec (hdigits _ (getElem_mem hnd)) hp hdvd
  have hround := halfUp_scaled hdigits
    (show (var.weight + 1) * 4 + rscale + ((4 - dm).toNat + 4 * (var.digits.length - (nd + 1)) : ℕ) =
      4 * var.digits.length by omega)
    (pow_within hdm _) hp heven
  have hdiv := mul_ediv_add_emod (value nbase (var.digits.take (nd + 1))) (roundPowers dm)
  have hmod : value nbase (var.digits.take (nd + 1)) % roundPowers dm =
      var.digits[nd] % roundPowers dm := by
    rw [value_take_succ hnd, emod_roundPowers hdm]
  refine ⟨h.digits, ?_, h.dscale, .inl h.sign⟩
  rw [magnitude, magnitude, hround, hmod]
  refine scaled_of_multiple hdm ?_ ?_
  · have hlowest := h.lowest
    simp only [length_take, length_singleton] at hlowest
    omega
  -- the carry out of the digit and the digit itself make up the part kept
  have hcarry : (if (roundDigit var.digits[nd] (roundPowers dm)).2 then nbase else 0) =
      (if (roundDigit var.digits[nd] (roundPowers dm)).2 then 1 else 0) * nbase := by
    split <;> ring
  rw [hmod, value_take_succ hnd] at hdiv
  rw [hcarry] at hsum
  rw [h.value, length_singleton, value_cons, length_nil, pow_zero, mul_one, value_nil,
    value_take_succ hnd, mul_add]
  rw [mul_ite, mul_one, mul_zero]
  linear_combination hsum - hdiv

theorem roundVar_spec (hdigits : Digits nbase var.digits) (hspare : var.spare = some 0 :: spare)
    (hfits : Fits var.weight rscale) :
    ∃ result, roundVar var rscale = .ok result ∧ RoundedBy halfUp var rscale result := by
  have hnonneg := magnitudeOf_nonneg hdigits var.weight
  unfold roundVar
  dsimp only
  rw [decimalDigits_ok (by exact hfits), ok_bind]
  dsimp only
  split
  next hneg =>
    have hsmall := scaled_lt hdigits (show (var.weight + 1) * 4 + rscale ≤ -1 by omega)
    norm_num at hsmall
    exact ⟨_, rfl, .zero (halfUp_eq_zero (mul_nonneg hnonneg (by positivity))
      (by rw [magnitude]; linarith))⟩
  rename_i hdi
  rw [int_places_ok hfits (not_lt.1 hdi), ok_bind, ndigits, decDigits]
  generalize hplaces : (var.weight + 1) * 4 + rscale = di at *
  split
  next hcut =>
    -- `nd` whole digits before the place
    obtain ⟨nd, hnd⟩ := eq_ofNat_of_zero_le (show 0 ≤ di / 4 by omega)
    have hlt : nd < var.digits.length := by
      dsimp only at hcut
      omega
    have hinit : Digits nbase (var.digits.take nd) := hdigits.mono (take_subset nd _)
    split
    next hzero =>
      rw [show ((di + 3) / 4).toNat = nd by omega, read_ok hlt]
      obtain ⟨result, hresult, hrounded⟩ :=
        roundUp_spec { var with dscale := rscale } hinit (fun d hd => absurd hd not_mem_nil)
        (decide (var.digits[nd] ≥ halfNbase)) hspare
      exact ⟨result, hresult, roundUp_whole hdigits (by omega) hlt hrounded⟩
    rename_i hpos
    obtain ⟨hread, hdrop⟩ := take_succ_parts hlt
    rw [show ((di + 3) / 4).toNat = nd + 1 by omega, Nat.add_sub_cancel, hread, hdrop]
    have hdm : 0 < di % 4 ∧ di % 4 < 4 := by omega
    obtain ⟨hp, -, hdvd⟩ := roundPowers_spec hdm
    obtain ⟨hlow, hhigh, -⟩ := roundDigit_spec (hdigits _ (getElem_mem hlt)) hp hdvd
    obtain ⟨result, hresult, hrounded⟩ := roundUp_spec { var with dscale := rscale } hinit
      (forall_mem_singleton.2 ⟨hlow, hhigh⟩) (roundDigit var.digits[nd] (roundPowers (di % 4))).2 hspare
    exact ⟨result, hresult, roundUp_within hdigits hdm (by omega) hlt hrounded⟩
  next hkeep => exact ⟨_, rfl, .kept hdigits halfUp_intCast (by dsimp only at hkeep; omega)⟩

theorem floor_scaled (h : Digits nbase digits)
    (hdi : (weight + 1) * 4 + rscale + e = 4 * digits.length)
    (hpow : 10 ^ e = p * nbase ^ (digits.length - nd)) (hp : 0 < p) :
    ⌊magnitudeOf digits weight * 10 ^ rscale⌋ = value nbase (digits.take nd) / p := by
  have hq : 0 < nbase ^ (digits.length - nd) := pow_pos nbase_pos _
  rw [scaled_quotient hdi, hpow,
    floor_div (mul_pos hp hq), h.value_take nbase_pos nd, mul_comm, ediv_ediv_of_nonneg hq.le]

theorem truncVar_spec (hdigits : Digits nbase var.digits) (hfits : Fits var.weight rscale) :
    ∃ result, truncVar var rscale = .ok result ∧ RoundedBy (fun y => ⌊y⌋) var rscale result := by
  have hnonneg := magnitudeOf_nonneg hdigits var.weight
  unfold truncVar
  dsimp only
  rw [decimalDigits_ok (by exact hfits), ok_bind]
  dsimp only
  split
  next hneg =>
    have hsmall := scaled_lt hdigits hneg
    rw [zpow_zero] at hsmall
    exact ⟨_, rfl, .zero (floor_eq_zero_iff.2 ⟨mul_nonneg hnonneg (by positivity), hsmall⟩)⟩
  rename_i hdi
  rw [int_places_ok hfits (by omega), ok_bind, ndigits, decDigits]
  generalize hplaces : (var.weight + 1) * 4 + rscale = di at *
  split
  next hcut =>
    obtain ⟨nd, hnd⟩ := eq_ofNat_of_zero_le (show 0 ≤ di / 4 by omega)
    dsimp only at hcut
    split
    next hpos =>
      have hlt : nd < var.digits.length := by omega
      obtain ⟨hread, hdrop⟩ := take_succ_parts hlt
      rw [show ((di + 3) / 4).toNat = nd + 1 by omega, Nat.add_sub_cancel, hread, hdrop]
      have hdm : 0 < di % 4 ∧ di % 4 < 4 := by omega
      generalize hmod4 : di % 4 = dm at hdm ⊢
      have hp := (roundPowers_spec hdm).1
      have hdigit := hdigits _ (getElem_mem hlt)
      have hmod0 := emod_nonneg var.digits[nd] hp.ne'
      have hquot : 0 ≤ var.digits[nd] - var.digits[nd] % roundPowers dm := by
        have hpart := mul_ediv_add_emod var.digits[nd] (roundPowers dm)
        have hpart0 : 0 ≤ roundPowers dm * (var.digits[nd] / roundPowers dm) :=
          mul_nonneg hp.le (ediv_nonneg hdigit.1 hp.le)
        omega
      have hfloor := floor_scaled hdigits
        (show (var.weight + 1) * 4 + rscale + ((4 - dm).toNat + 4 * (var.digits.length - (nd + 1)) : ℕ) =
          4 * var.digits.length by omega)
        (pow_within hdm _) hp
      have hdiv := mul_ediv_add_emod (value nbase (var.digits.take (nd + 1))) (roundPowers dm)
      refine ⟨_, rfl,
        ⟨(hdigits.mono (take_subset nd _)).append (forall_mem_singleton.2 ⟨hquot, by omega⟩),
          ?_, rfl, .inl rfl⟩⟩
      rw [magnitude, magnitude, hfloor]
      refine scaled_of_multiple hdm ?_ ?_
      · simp only [length_append, length_take, length_singleton]
        omega
      · rw [value_take_succ hlt, emod_roundPowers hdm] at hdiv
        rw [value_concat, value_take_succ hlt]
        linear_combination -hdiv
    rename_i hwhole
    rw [show ((di + 3) / 4).toNat = nd by omega]
    refine ⟨_, rfl, ⟨hdigits.mono (take_subset nd _), ?_, rfl, .inl rfl⟩⟩
    have hfloor := floor_scaled hdigits
      (show (var.weight + 1) * 4 + rscale + (4 * (var.digits.length - nd) : ℕ) =
        4 * var.digits.length by omega)
      (show (10 : ℤ) ^ (4 * (var.digits.length - nd)) =
        1 * nbase ^ (var.digits.length - nd) by rw [one_mul, nbase_pow]) one_pos
    have hexp : (var.weight + 1) * 4 + rscale - 4 * ((var.digits.take nd).length : ℤ) = 0 := by
      rw [length_take]
      omega
    rw [magnitude, magnitude, hfloor, scaled_magnitude, hexp, zpow_zero, mul_one, ediv_one]
  next hkeep => exact ⟨_, rfl, .kept hdigits floor_intCast (by dsimp only at hkeep; omega)⟩

theorem RoundedBy.isNumber {rounded : NumericVar} (h : RoundedBy round var rscale rounded)
    (hvar : var.Valid) (hround : round 0 = 0) :
    IsNumber (away round (var.toRat * 10 ^ rscale) / 10 ^ rscale) rscale (stripVar rounded) := by
  have hstrip := stripVar_spec h.digits
  refine ⟨hstrip.normalised ?_, hstrip.toRat.trans (h.toRat hvar.digits hround),
    hstrip.dscale.trans h.dscale⟩
  rcases h.sign with hsign | ⟨-, hsign⟩
  · rw [hsign]
    exact hvar.number
  · rw [hsign]
    exact nofun

theorem roundVar_stripVar_spec (hvar : var.Valid) (hspare : var.spare = some 0 :: spare)
    (hfits : Fits var.weight rscale) :
    ∃ result, (roundVar var rscale >>= fun rounded => pure (stripVar rounded)) = .ok result ∧
      IsNumber (roundAt rscale var.toRat) rscale result := by
  obtain ⟨rounded, hrounded, hspec⟩ := roundVar_spec hvar.digits hspare hfits
  rw [hrounded]
  exact ⟨_, rfl, hspec.isNumber hvar (halfUp_eq_zero le_rfl (by norm_num))⟩

theorem truncVar_stripVar_spec (hvar : var.Valid) (hfits : Fits var.weight rscale) :
    ∃ result, (truncVar var rscale >>= fun truncated => pure (stripVar truncated)) = .ok result ∧
      IsNumber (truncAt rscale var.toRat) rscale result := by
  obtain ⟨truncated, htruncated, hspec⟩ := truncVar_spec hvar.digits hfits
  rw [htruncated]
  exact ⟨_, rfl, hspec.isNumber hvar floor_zero⟩

theorem NumericVar.Normalised.not_dvd (h : var.Normalised) (hne : var.digits ≠ []) :
    ¬ nbase ∣ value nbase var.digits := by
  rintro ⟨z, hz⟩
  obtain ⟨init, last, hsplit⟩ : ∃ init last, var.digits = init ++ [last] :=
    ⟨_, _, (dropLast_append_getLast hne).symm⟩
  have hdigit := h.digits last (by rw [hsplit]; simp)
  rw [hsplit, value_concat] at hz
  have hsum : last = (z - value nbase init) * nbase := by linear_combination hz
  have hmod : last % nbase = 0 := by rw [hsum, mul_emod_left]
  rw [emod_eq_of_lt hdigit.1 hdigit.2] at hmod
  exact h.last (by rw [hsplit, getLast?_concat, hmod])

/-- A normalised number that ends within a scale has no more digits than the scale needs. -/
theorem NumericVar.Normalised.length_le {z : ℤ} (h : var.Normalised) (hne : var.digits ≠ [])
    (hz : var.magnitude * 10 ^ rscale = z) :
    4 * (var.digits.length : ℤ) ≤ 4 * (var.weight + 1) + rscale + 3 := by
  by_contra hlt
  obtain ⟨k, hk⟩ : ∃ k : ℕ, (var.weight + 1) * 4 + rscale - 4 * var.digits.length = -((4 + k : ℕ) : ℤ) :=
    ⟨(4 * (var.digits.length : ℤ) - 4 * (var.weight + 1) - rscale - 4).toNat, by omega⟩
  have hvalue : value nbase var.digits = nbase * (z * 10 ^ k) := by
    rw [magnitude, scaled_magnitude, hk, zpow_neg, zpow_natCast,
      mul_inv_eq_iff_eq_mul₀ (by positivity), pow_add] at hz
    have hz' : value nbase var.digits = z * (10 ^ 4 * 10 ^ k) := by exact_mod_cast hz
    rw [hz', nbase]
    ring
  exact h.not_dvd hne ⟨_, hvalue⟩

end Pg.Numeric
