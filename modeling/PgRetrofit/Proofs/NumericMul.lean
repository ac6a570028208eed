import PgRetrofit.Sanity.NumericRound

/-! `mul_var` is exact when the result scale has room for all digits, and its deferred carries never
overflow an `int`. -/

namespace Pg.Numeric

open Positional Rounding List Result NumericVar

/-- the bound on an entry of the accumulator that the code keeps to -/
def entryMax : ℤ := intMax - intMax / nbase

/-- `maxdig` stays at most this -/
def maxdigMax : ℤ := (intMax - intMax / nbase) / (nbase - 1)

theorem maxdigMax_mul_le : maxdigMax * (nbase - 1) ≤ entryMax := by decide

variable {var : NumericVar} {dig : List ℤ} (h : ∀ d ∈ dig, 0 ≤ d ∧ d ≤ entryMax)
include h

theorem carryStep_carries :
    Carries nbase (carryStep dig) id (fun i => dig.getD i 0)
      (fun _ carry => 0 ≤ carry ∧ carry ≤ intMax / nbase) dig.length := by
  refine ⟨fun i hi carry hcarry => ?_⟩
  obtain ⟨hlow, hhigh⟩ := h _ (getElem_mem hi)
  have hint : IsInt (dig[i] + carry) := by
    unfold IsInt entryMax intMax nbase at *
    omega
  rw [carryStep, read_ok hi, ok_bind, int_ok hint, ok_bind]
  simp only [getD_eq_getElem _ _ hi, id]
  unfold entryMax intMax nbase at *
  split
  all_goals exact ⟨_, _, rfl, ⟨by omega, by omega⟩, by omega, by omega, by ring⟩

theorem normalize_spec (hvalue : value nbase dig < nbase ^ dig.length) :
    ∃ out, normalize dig = .ok out ∧ Digits nbase out ∧ out.length = dig.length ∧
      value nbase out = value nbase dig := by
  have hzero : (0 : ℤ) ≤ 0 ∧ (0 : ℤ) ≤ intMax / nbase := ⟨le_rfl, by decide⟩
  obtain ⟨out, carry, hrun, hcarry, hdigits, hlength, hsum⟩ := (carryStep_carries h).run hzero
  rw [upTo_getD, id, id] at hsum
  have hnonneg := hdigits.nonneg nbase_pos.le
  have hpow : 0 < nbase ^ dig.length := pow_pos nbase_pos _
  obtain rfl : carry = 0 := by
    by_contra hne
    have : 1 ≤ carry := by omega
    nlinarith
  refine ⟨out, ?_, hdigits, hlength, by simpa using hsum⟩
  rw [normalize, hrun]
  rfl

omit h

/-- the entries of the accumulator, `i` and later ones after the current multiple was added -/
structure Bounded (dig : List ℤ) (before after : ℤ) (i : ℕ) : Prop where
  entry : ∀ j (h : j < dig.length), 0 ≤ dig[j] ∧ dig[j] ≤ after
  rest : ∀ j (h : j < dig.length), j < i → dig[j] ≤ before

theorem mulInner_spec {i1 n1 : ℕ} {var1digit before after : ℤ} {var2digits dig : List ℤ} (hi1 : i1 < n1)
    (hdigit : 0 ≤ var1digit ∧ var1digit < nbase) (hdigits : Digits nbase var2digits)
    (hafter : before + var1digit * (nbase - 1) ≤ after) (hmax : after ≤ intMax) {m : ℕ}
    (hm : m ≤ var2digits.length) (hlength : dig.length = n1 + var2digits.length + 1)
    (hbound : Bounded dig before after (i1 + 2 + m)) :
    ∃ out, mulInner i1 var1digit var2digits m dig = .ok out ∧ out.length = dig.length ∧
      (∀ d ∈ out, 0 ≤ d ∧ d ≤ after) ∧
      value nbase out = value nbase dig + var1digit * value nbase (var2digits.take m) *
        nbase ^ (n1 - 1 - i1 + (var2digits.length - m)) := by
  induction m generalizing dig with
  | zero =>
    refine ⟨dig, rfl, rfl, fun d hd => ?_, by simp⟩
    obtain ⟨j, hj, rfl⟩ := getElem_of_mem hd
    exact hbound.entry j hj
  | succ m ih => ?_
  have hi2 : m < var2digits.length := hm
  have hindex : i1 + m + 2 < dig.length := by omega
  obtain ⟨hlow2, hhigh2⟩ := hdigits _ (getElem_mem hi2)
  obtain ⟨hlow, -⟩ := hbound.entry _ hindex
  have hbefore := hbound.rest _ hindex (by omega)
  have hprod0 : 0 ≤ var1digit * var2digits[m] := mul_nonneg hdigit.1 hlow2
  have hprod1 : var1digit * var2digits[m] ≤ var1digit * (nbase - 1) :=
    mul_le_mul_of_nonneg_left (by omega) hdigit.1
  have hint : intMax = 2147483647 := rfl
  rw [mulInner, read_ok hi2, ok_bind, int_ok ⟨by omega, by omega⟩, ok_bind, read_ok hindex, ok_bind,
    int_ok ⟨by omega, by omega⟩]
  have hnext : Bounded (dig.set (i1 + m + 2) (dig[i1 + m + 2] + var1digit * var2digits[m])) before after
      (i1 + 2 + m) := by
    refine ⟨fun j hj => ?_, fun j hj hlt => ?_⟩
    · rw [length_set] at hj
      rw [getElem_set]
      split
      next => exact ⟨by omega, by omega⟩
      next => exact hbound.entry j hj
    · rw [length_set] at hj
      rw [getElem_set, if_neg (by omega)]
      exact hbound.rest j hj (by omega)
  obtain ⟨out, hout, houtlen, houtbound, houtvalue⟩ :=
    ih (Nat.le_of_succ_le hm) (by rw [length_set, hlength]) hnext
  refine ⟨out, hout, by rw [houtlen, length_set], houtbound, ?_⟩
  have hpow1 : nbase ^ (dig.length - 1 - (i1 + m + 2)) =
      nbase ^ (n1 - 1 - i1 + (var2digits.length - (m + 1))) := by
    congr 1
    omega
  have hpow2 : nbase ^ (n1 - 1 - i1 + (var2digits.length - m)) =
      nbase * nbase ^ (n1 - 1 - i1 + (var2digits.length - (m + 1))) := by
    rw [← pow_succ']
    congr 1
    omega
  rw [houtvalue, value_set hindex, hpow1, hpow2, value_take_succ hi2]
  ring

/-- where the loop over the first operand stands: `k` digits to go -/
structure Accumulated (var1digits var2digits : List ℤ) (k : ℕ) (maxdig : ℤ) (dig : List ℤ) : Prop where
  length : dig.length = var1digits.length + var2digits.length + 1
  range : 0 ≤ maxdig ∧ maxdig ≤ maxdigMax
  entry : ∀ d ∈ dig, 0 ≤ d ∧ d ≤ maxdig * (nbase - 1)
  value : value nbase dig = value nbase (var1digits.drop k) * value nbase var2digits

section

variable {var1digits var2digits : List ℤ} {maxdig : ℤ} (h1 : Digits nbase var1digits)
  (h2 : Digits nbase var2digits)
include h1 h2

theorem product_lt (k : ℕ) :
    value nbase (var1digits.drop k) * value nbase var2digits <
      nbase ^ (var1digits.length + var2digits.length + 1) := by
  have hdrop : Digits nbase (var1digits.drop k) := h1.mono (drop_subset k _)
  have hlt1 := hdrop.value_lt nbase_pos
  have hlt2 := h2.value_lt nbase_pos
  have hle : nbase ^ (var1digits.drop k).length ≤ nbase ^ var1digits.length :=
    pow_le_pow_right₀ (by decide) (by rw [length_drop]; omega)
  have hpow : 0 < nbase ^ (var1digits.length + var2digits.length) := pow_pos nbase_pos _
  calc value nbase (var1digits.drop k) * value nbase var2digits
      ≤ nbase ^ var1digits.length * nbase ^ var2digits.length :=
        mul_le_mul (hlt1.le.trans hle) hlt2.le (h2.nonneg nbase_pos.le) (pow_pos nbase_pos _).le
    _ = nbase ^ (var1digits.length + var2digits.length) := (pow_add _ _ _).symm
    _ < nbase ^ (var1digits.length + var2digits.length + 1) := by
      rw [pow_succ]
      have : (1 : ℤ) < nbase := by decide
      nlinarith

theorem Accumulated.normalizes {k : ℕ} (h : Accumulated var1digits var2digits k maxdig dig) :
    ∃ out, normalize dig = .ok out ∧ Digits nbase out ∧ out.length = dig.length ∧
      Positional.value nbase out = Positional.value nbase dig := by
  refine normalize_spec (fun d hd => ⟨(h.entry d hd).1, (h.entry d hd).2.trans ?_⟩) ?_
  · exact (mul_le_mul_of_nonneg_right h.range.2 (by decide)).trans maxdigMax_mul_le
  · rw [h.value, h.length]
    exact product_lt h1 h2 k

theorem makeRoom_spec {i1 : ℕ} (hi1 : i1 < var1digits.length)
    (h : Accumulated var1digits var2digits (i1 + 1) maxdig dig) :
    ∃ dig' maxdig', makeRoom dig (maxdig + var1digits[i1]) var1digits[i1] = .ok (dig', maxdig') ∧
      dig'.length = dig.length ∧ value nbase dig' = value nbase dig ∧ var1digits[i1] ≤ maxdig' ∧
      maxdig' ≤ maxdigMax ∧
      ∀ d ∈ dig', 0 ≤ d ∧ d ≤ (maxdig' - var1digits[i1]) * (nbase - 1) := by
  obtain ⟨hlow, hhigh⟩ := h1 _ (getElem_mem hi1)
  unfold makeRoom
  split
  next hfull =>
    obtain ⟨out, hout, hdigits, hlength, hvalue⟩ := h.normalizes h1 h2
    have hone : 1 + var1digits[i1] ≤ maxdigMax :=
      le_trans (by omega : 1 + var1digits[i1] ≤ nbase) (by decide)
    refine ⟨out, 1 + var1digits[i1], by rw [hout]; rfl, hlength, hvalue, by omega, hone, fun d hd => ?_⟩
    obtain ⟨hd0, hd1⟩ := hdigits d hd
    exact ⟨hd0, by omega⟩
  next hroom =>
    refine ⟨dig, maxdig + var1digits[i1], rfl, rfl, rfl,
      by have := h.range.1; omega, not_lt.1 hroom, fun d hd => ?_⟩
    rw [add_sub_cancel_right]
    exact h.entry d hd

theorem mulOuter_spec {k : ℕ} (hk : k ≤ var1digits.length)
    (h : Accumulated var1digits var2digits k maxdig dig) :
    ∃ out maxdig',
      mulOuter var1digits var2digits (var1digits.length + var2digits.length + 1) k maxdig dig = .ok out ∧
      Accumulated var1digits var2digits 0 maxdig' out := by
  induction k generalizing maxdig dig with
  | zero => exact ⟨dig, maxdig, rfl, h⟩
  | succ i1 ih => ?_
  have hi1 : i1 < var1digits.length := hk
  obtain ⟨hlow, hhigh⟩ := h1 _ (getElem_mem hi1)
  have hdrop : var1digits.drop i1 = var1digits[i1] :: var1digits.drop (i1 + 1) :=
    drop_eq_getElem_cons hi1
  rw [mulOuter, read_ok hi1, ok_bind]
  split
  next hzero =>
    refine ih (Nat.le_of_succ_le hk) { h with value := ?_ }
    rw [h.value, hdrop, value_cons, hzero, zero_mul, zero_add]
  rename_i hne
  have hint : IsInt (maxdig + var1digits[i1]) := by
    have hmax : maxdigMax = 214748 := by decide
    have hrange := h.range
    unfold IsInt intMax nbase at *
    omega
  rw [int_ok hint, ok_bind]
  obtain ⟨dig', maxdig', hroom, hlength', hvalue', hle, hmax', hentry'⟩ := makeRoom_spec h1 h2 hi1 h
  rw [hroom, ok_bind]
  dsimp only
  have hcount :
    (min ((var2digits.length : ℤ) - 1) ((var1digits.length : ℤ) + var2digits.length + 1 - i1 - 3) +
      1).toNat = var2digits.length := by omega
  rw [hcount]
  have hlen' : dig'.length = var1digits.length + var2digits.length + 1 := hlength'.trans h.length
  have hafter : maxdig' * (nbase - 1) ≤ intMax :=
    (mul_le_mul_of_nonneg_right hmax' (by decide)).trans (maxdigMax_mul_le.trans (by decide))
  have hbound : Bounded dig' ((maxdig' - var1digits[i1]) * (nbase - 1)) (maxdig' * (nbase - 1))
      (i1 + 2 + var2digits.length) := by
    refine ⟨fun j hj => ?_, fun j hj _ => (hentry' _ (getElem_mem hj)).2⟩
    obtain ⟨hlow', hhigh'⟩ := hentry' _ (getElem_mem hj)
    refine ⟨hlow', hhigh'.trans (mul_le_mul_of_nonneg_right (by omega) (by decide))⟩
  obtain ⟨out, hout, houtlen, houtentry, houtvalue⟩ :=
    mulInner_spec hi1 ⟨hlow, hhigh⟩ h2 (by rw [← add_mul, sub_add_cancel]) hafter le_rfl hlen' hbound
  rw [hout]
  refine ih (Nat.le_of_succ_le hk) ⟨houtlen.trans hlen', ⟨by omega, hmax'⟩, houtentry, ?_⟩
  rw [houtvalue, hvalue', h.value, hdrop, value_cons, length_drop, take_length, Nat.sub_self,
    show var1digits.length - (i1 + 1) = var1digits.length - 1 - i1 by omega]
  ring

end

/-- All digits that are not zero end within the scale. -/
def NumericVar.EndsWithin (var : NumericVar) : Prop := ∃ z : ℤ, var.magnitude * 10 ^ var.dscale = z

theorem NumericVar.EndsWithin.toRat (h : var.EndsWithin) : ∃ z : ℤ, var.toRat * 10 ^ var.dscale = z := by
  obtain ⟨z, hz⟩ := h
  rw [NumericVar.toRat]
  split
  next => exact ⟨-z, by rw [neg_mul, hz, Int.cast_neg]⟩
  next => exact ⟨z, hz⟩

theorem NumericVar.EndsWithin.length_le (h : var.EndsWithin) (hnormal : var.Normalised)
    (hne : var.digits ≠ []) :
    4 * (var.digits.length : ℤ) ≤ 4 * (var.weight + 1) + var.dscale + 3 := by
  obtain ⟨z, hz⟩ := h
  exact hnormal.length_le hne hz

/-- the sizes and weights `mul_var` computes are in range, and the accumulator can be allocated -/
structure MulFits (var1 var2 : NumericVar) (rscale : ℤ) : Prop where
  weight : IsInt (var1.weight + var2.weight)
  resWeight : IsInt (var1.weight + var2.weight + 2 + 1)
  fraction : IsInt (rscale + 3)
  maxdigits : IsInt (var1.weight + var2.weight + 2 + 1 + (rscale + 3).tdiv 4 + 2)
  size : (var1.digits.length + var2.digits.length + 1) * 4 ≤ maxAllocSize
  round : Fits (var1.weight + var2.weight + 2) rscale

variable {var1 var2 : NumericVar} {rscale : ℤ}

theorem MulFits.symm (h : MulFits var1 var2 rscale) : MulFits var2 var1 rscale where
  weight := by rw [add_comm]; exact h.weight
  resWeight := by rw [add_comm var2.weight]; exact h.resWeight
  fraction := h.fraction
  maxdigits := by rw [add_comm var2.weight]; exact h.maxdigits
  size := by rw [add_comm var2.digits.length]; exact h.size
  round := by rw [add_comm var2.weight]; exact h.round

theorem toRat_mul {sign : Sign} (h1 : var1.Valid) (h2 : var2.Valid)
    (hsign : sign = if var1.sign = var2.sign then .pos else .neg) :
    (if sign = .neg then -(var1.magnitude * var2.magnitude) else var1.magnitude * var2.magnitude) =
      var1.toRat * var2.toRat := by
  rw [toRat, toRat]
  have hn1 := h1.number
  have hn2 := h2.number
  rcases hs1 : var1.sign with _ | _ | _ <;> rcases hs2 : var2.sign with _ | _ | _ <;> simp_all

variable (h1 : var1.Normalised) (h2 : var2.Normalised) (hends1 : var1.EndsWithin)
  (hends2 : var2.EndsWithin)
  (hscale : var1.dscale + var2.dscale ≤ rscale) (hfits : MulFits var1 var2 rscale)
include h1 h2 hends1 hends2 hscale hfits

theorem mulVarOrdered_spec :
    ∃ result, mulVarOrdered var1 var2 rscale = .ok result ∧
      IsNumber (var1.toRat * var2.toRat) rscale result := by
  unfold mulVarOrdered ndigits
  dsimp only
  split
  next hzero =>
    have hprod : var1.toRat * var2.toRat = 0 := by
      rcases hzero with hnil | hnil <;>
        simp [toRat, magnitude, eq_nil_of_length_eq_zero (by exact_mod_cast hnil), magnitudeOf_nil]
    rw [hprod]
    exact ⟨_, rfl, isNumber_zero rscale⟩
  rename_i hne
  have hne1 : var1.digits ≠ [] := fun hnil => hne (.inl (by simp [hnil]))
  have hne2 : var2.digits ≠ [] := fun hnil => hne (.inr (by simp [hnil]))
  have hlength1 := hends1.length_le h1 hne1
  have hlength2 := hends2.length_le h2 hne2
  have htdiv : (rscale + 3) / 4 ≤ (rscale + 3).tdiv 4 := by
    rw [Int.tdiv_eq_ediv]
    split <;> simp
  have hsize := hfits.size
  have hlow := hfits.weight.1
  have hhigh := hfits.resWeight.2
  have hint : intMax = 2147483647 := rfl
  have hmax : maxAllocSize = 1073741823 := rfl
  -- the result scale has room for all digits of the product
  have hmin : min ((var1.digits.length : ℤ) + var2.digits.length + 1)
    (var1.weight + var2.weight + 2 + 1 + (rscale + 3).tdiv 4 + 2) =
      (var1.digits.length : ℤ) + var2.digits.length + 1 := by omega
  rw [int_ok hfits.weight, ok_bind, int_ok ⟨by omega, by omega⟩, ok_bind, int_ok ⟨by omega, by omega⟩,
    ok_bind, decDigits, mulGuardDigits,
    show rscale + 4 - 1 = rscale + 3 by
      ring, int_ok hfits.fraction, ok_bind, int_ok hfits.resWeight, ok_bind,
    int_ok hfits.maxdigits, ok_bind]
  rw [hmin, if_neg (by omega), alloc_ok (by omega), ok_bind,
    show (min ((var1.digits.length : ℤ) - 1) ((var1.digits.length : ℤ) + var2.digits.length + 1 - 3) +
      1).toNat = var1.digits.length by omega,
    show ((var1.digits.length : ℤ) + var2.digits.length + 1).toNat =
      var1.digits.length + var2.digits.length + 1 by omega]
  have hstart : Accumulated var1.digits var2.digits var1.digits.length 0
      (replicate (var1.digits.length + var2.digits.length + 1) 0) := by
    refine ⟨length_replicate, ⟨le_rfl, by decide⟩, fun d hd => ?_, ?_⟩
    · rw [eq_of_mem_replicate hd]
      exact ⟨le_rfl, by decide⟩
    · rw [value_replicate_zero, drop_length, value_nil, zero_mul]
  obtain ⟨dig, maxdig, hdig, hacc⟩ := mulOuter_spec h1.digits h2.digits le_rfl hstart
  rw [hdig, ok_bind, digitbufAlloc, alloc_ok (by omega)]
  obtain ⟨out, hout, hdigits, hlength, hvalue⟩ := hacc.normalizes h1.digits h2.digits
  rw [hout]
  rw [hacc.value, drop_zero] at hvalue
  rw [hacc.length] at hlength
  have hmag : magnitudeOf out (var1.weight + var2.weight + 2) = var1.magnitude * var2.magnitude := by
    have hexp : var1.weight + var2.weight + 2 + 1 - (out.length : ℤ) =
      (var1.weight + 1 - var1.digits.length) + (var2.weight + 1 - var2.digits.length) := by omega
    rw [magnitudeOf, hvalue, hexp, zpow_add₀ (by norm_num), magnitude, magnitude,
      magnitudeOf, magnitudeOf]
    push_cast
    ring
  have hvalid : NumericVar.Valid ⟨[some 0], out, var1.weight + var2.weight + 2,
      if var1.sign = var2.sign then .pos else .neg, 0⟩ := by
    refine ⟨hdigits, ?_⟩
    split <;> simp
  have hrat : toRat ⟨[some 0], out, var1.weight + var2.weight + 2, if var1.sign = var2.sign then .pos
      else .neg, 0⟩ = var1.toRat * var2.toRat := by
    rw [← toRat_mul h1.toValid h2.toValid rfl, ← hmag]
    rfl
  -- all digits of the product end within `rscale`
  obtain ⟨z1, hz1⟩ := hends1.toRat
  obtain ⟨z2, hz2⟩ := hends2.toRat
  obtain ⟨k, hk⟩ := Int.eq_ofNat_of_zero_le (sub_nonneg.2 hscale)
  have hinteger : var1.toRat * var2.toRat * 10 ^ rscale = ((z1 * z2 * 10 ^ k : ℤ) : ℚ) := by
    rw [show rscale = var1.dscale + var2.dscale +
      (k : ℤ) by omega, zpow_add₀ (by norm_num), zpow_add₀ (by norm_num), zpow_natCast]
    push_cast
    rw [← hz1, ← hz2]
    ring
  have hround := roundVar_stripVar_spec hvalid rfl hfits.round
  rw [hrat, roundAt_of_integer hinteger] at hround
  exact hround

theorem mulVar_spec :
    ∃ result, mulVar var1 var2 rscale = .ok result ∧
      IsNumber (var1.toRat * var2.toRat) rscale result := by
  unfold mulVar
  split
  next =>
    rw [mul_comm]
    exact mulVarOrdered_spec h2 h1 hends2 hends1 (by omega) hfits.symm
  next => exact mulVarOrdered_spec h1 h2 hends1 hends2 hscale hfits

omit h1 h2 hends1 hends2 hscale hfits

/-- The product is exact; no entry of the accumulator, no carry and no `maxdig` leaves the range of
`int`. -/
theorem mulVar_exact {var1 var2 : NumericVar} {rscale : ℤ} (h1 : var1.Normalised) (h2 : var2.Normalised)
    (hends1 : var1.EndsWithin) (hends2 : var2.EndsWithin) (hscale : var1.dscale + var2.dscale ≤ rscale)
    (hfits : MulFits var1 var2 rscale) :
    ∃ result, mulVar var1 var2 rscale = .ok result ∧ IsNumber (var1.toRat * var2.toRat) rscale result :=
  mulVar_spec h1 h2 hends1 hends2 hscale hfits

/-- 12.5 times -0.0003 -/
theorem mulVar_exact_fraction :
    ∃ result, mulVar ⟨[], [12, 5000], 0, .pos, 1⟩ ⟨[], [3], -1, .neg, 4⟩ 5 = .ok result ∧
    IsNumber (NumericVar.toRat ⟨[], [12, 5000], 0, .pos, 1⟩ * NumericVar.toRat ⟨[], [3], -1, .neg, 4⟩)
      5 result := by
  have h1 : NumericVar.Normalised ⟨[], [12, 5000], 0, .pos, 1⟩ := by decide
  have h2 : NumericVar.Normalised ⟨[], [3], -1, .neg, 4⟩ := by decide
  have hends1 : NumericVar.EndsWithin ⟨[], [12, 5000], 0, .pos, 1⟩ :=
    ⟨125, by norm_num [magnitude, magnitudeOf, value, nbase]⟩
  have hends2 : NumericVar.EndsWithin ⟨[], [3], -1, .neg, 4⟩ :=
    ⟨3, by norm_num [magnitude, magnitudeOf, value]⟩
  refine mulVar_exact h1 h2 hends1 hends2 (by decide)
    ⟨by decide, by decide, by decide, by decide, by decide, ⟨by decide, by decide, by decide⟩⟩

/-- The square of a number with 2 ^ 27 digits has too many digits to allocate. -/
theorem mulVar_too_many_digits : ∃ var : NumericVar, var.Normalised ∧ var.EndsWithin ∧ var.dscale = 0 ∧
    mulVar var var 0 = .error (.backend (.allocSize 1073741828)) := by
  obtain ⟨n, hn⟩ : ∃ n : ℕ, n = 134217728 := ⟨_, rfl⟩
  obtain ⟨m, rfl⟩ : ∃ m, n = m + 1 := ⟨n - 1, by omega⟩
  refine ⟨⟨[], replicate (m + 1) 9999, m, .pos, 0⟩, ⟨⟨fun d hd => ?_, nofun⟩, ?_, ?_⟩, ?_, rfl, ?_⟩
  · rw [eq_of_mem_replicate hd]
    decide
  · simp [replicate_succ]
  · rw [replicate_succ', getLast?_concat]
    decide
  · exact scaled_integer _ _ 0 (by rw [length_replicate]; push_cast; omega)
  · have hm : (m : ℤ) = 134217727 := by omega
    rw [mulVar, mulVarOrdered]
    unfold ndigits
    dsimp only
    rw [length_replicate, Nat.cast_succ, hm, int_ok (by decide), ok_bind, int_ok (by decide),
      ok_bind, int_ok (by decide), ok_bind, int_ok (by decide), ok_bind, int_ok (by decide),
      ok_bind, int_ok (by decide)]
    rfl

end Pg.Numeric
