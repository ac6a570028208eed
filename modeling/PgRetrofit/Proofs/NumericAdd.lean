import PgRetrofit.Sanity.NumericValue

/-! `add_var` and `sub_var` are exact, whatever the weights of their operands and also when the result
is one of them. -/

namespace Pg.Numeric

open Positional List Function Result Int NumericVar

/-- A variable is aligned to a result of weight `weight` and `rscale` digits after the decimal point:
it ends within the result, and starts there if it has digits. -/
structure Within (digits : List ℤ) (weight resWeight resRscale : ℤ) : Prop where
  last : digits.length - weight - 1 ≤ resRscale
  first : digits = [] ∨ weight ≤ resWeight

def operandTerm (digits : List ℤ) (weight resRscale ndigits : ℤ) (i : ℕ) :
    ℤ := digitAt digits (resRscale + weight + 1 - (ndigits - i))

variable {digits : List ℤ} {m : ℚ} {resWeight : ℤ}

theorem operandTerm_digit (h : Digits nbase digits) (weight resRscale ndigits : ℤ) (i : ℕ) :
    0 ≤ operandTerm digits weight resRscale ndigits i ∧
      operandTerm digits weight resRscale ndigits i < nbase := by
  rw [operandTerm, digitAt]
  generalize resRscale + weight + 1 - (ndigits - i) = k
  split
  next hk =>
    have hlt : k.toNat < digits.length := by omega
    rw [getD_eq_getElem _ _ hlt]
    exact h _ (getElem_mem hlt)
  next => exact ⟨le_rfl, nbase_pos⟩

/-- The terms of an operand are its value in units of the last digit of the result. -/
theorem upTo_operandTerm {weight resRscale : ℤ} (h : Within digits weight resWeight resRscale) {n : ℕ}
    (hn : (n : ℤ) = resRscale + resWeight + 1) :
    (upTo nbase (operandTerm digits weight resRscale n) n : ℚ) =
      magnitudeOf digits weight * 10000 ^ resRscale := by
  rcases h.first with rfl | hfirst
  · have hzero : upTo nbase (operandTerm [] weight resRscale n) n = value nbase (take (n - 0) []) *
        nbase ^ (n - 0 - ([] : List ℤ).length) :=
      upTo_shift (fun i hi => absurd hi (Nat.not_lt_zero i))
        (fun i _ _ => by simp [operandTerm, digitAt])
    rw [hzero, magnitudeOf_nil]
    simp
  obtain ⟨k, hk⟩ := eq_ofNat_of_zero_le (sub_nonneg.2 hfirst)
  have hlast := h.last
  have hshift : upTo nbase (operandTerm digits weight resRscale n) n =
      value nbase (digits.take (n - k)) * nbase ^ (n - k - digits.length) := by
    refine upTo_shift (fun i hi => ?_) (fun i hi hki => ?_)
    · rw [operandTerm, digitAt, if_neg (by omega)]
    rw [operandTerm, digitAt, show resRscale + weight + 1 - ((n : ℤ) - i) = ((i - k : ℕ) : ℤ) by omega]
    by_cases hlt : i - k < digits.length
    · rw [if_pos (by omega), toNat_natCast]
    · rw [if_neg (by omega), getD_eq_default _ _ (not_lt.1 hlt)]
  have hexp : (n - k - digits.length : ℕ) = weight + 1 - digits.length + resRscale := by omega
  rw [hshift, take_of_length_le (by omega), magnitudeOf, mul_assoc, ← zpow_add₀ (by norm_num),
    ← hexp, zpow_natCast]
  push_cast
  rw [nbase_cast]

section Steps

variable {digits1 digits2 : List ℤ} (h1 : Digits nbase digits1) (h2 : Digits nbase digits2)
  (weight1 weight2 resRscale ndigits : ℤ) (n : ℕ)
include h1 h2

theorem addStep_carries :
    Carries nbase
      (addStep digits1 digits2 (resRscale + weight1 + 1) (resRscale + weight2 + 1) ndigits) id
      (fun i => operandTerm digits1 weight1 resRscale ndigits i +
        operandTerm digits2 weight2 resRscale ndigits i) (fun _ carry => 0 ≤ carry ∧ carry ≤ 1) n := by
  refine ⟨fun i _ carry hcarry => ?_⟩
  obtain ⟨hlow1, hhigh1⟩ := operandTerm_digit h1 weight1 resRscale ndigits i
  obtain ⟨hlow2, hhigh2⟩ := operandTerm_digit h2 weight2 resRscale ndigits i
  unfold addStep
  simp only [operandTerm, id] at *
  split
  all_goals exact ⟨_, _, rfl, ⟨by decide, by decide⟩, by omega, by omega, by ring⟩

theorem subStep_carries :
    Carries nbase
      (subStep digits1 digits2 (resRscale + weight1 + 1) (resRscale + weight2 + 1) ndigits) id
      (fun i => operandTerm digits1 weight1 resRscale ndigits i - operandTerm digits2 weight2 resRscale
        ndigits i) (fun _ borrow => -1 ≤ borrow ∧ borrow ≤ 0) n := by
  refine ⟨fun i _ borrow hborrow => ?_⟩
  obtain ⟨hlow1, hhigh1⟩ := operandTerm_digit h1 weight1 resRscale ndigits i
  obtain ⟨hlow2, hhigh2⟩ := operandTerm_digit h2 weight2 resRscale ndigits i
  unfold subStep
  simp only [operandTerm, id] at *
  split
  all_goals exact ⟨_, _, rfl, ⟨by decide, by decide⟩, by omega, by omega, by ring⟩

end Steps

/-- the sizes `add_abs` and `sub_abs` compute are in range, and the digits can be allocated -/
structure FrameFits (var1 var2 : NumericVar) (resWeight : ℤ) : Prop where
  rscale1 : IsInt (var1.digits.length - var1.weight - 1)
  rscale2 : IsInt (var2.digits.length - var2.weight - 1)
  size :
    (max (var1.digits.length - var1.weight - 1) (var2.digits.length - var2.weight - 1 : ℤ) +
      resWeight + 2) * 2 ≤ maxAllocSize

structure HasMagnitude (var1 var2 : NumericVar) (m : ℚ) (result : NumericVar) : Prop where
  digits : Digits nbase result.digits
  magnitude : result.magnitude = m
  dscale : result.dscale = max var1.dscale var2.dscale

/-- One loop for both: the digits are exact if no carry is left over. -/
theorem alignedLoop_spec {step : List ℤ → List ℤ → ℤ → ℤ → ℤ → ℕ → ℤ → Except Fault (ℤ × ℤ)}
    {var1 var2 : NumericVar} {inv : ℤ → Prop} {term : ℤ → ℤ → ℕ → ℤ}
    (hfits : FrameFits var1 var2 resWeight)
    (hpos : 0 < max (var1.digits.length - var1.weight - 1)
      (var2.digits.length - var2.weight - 1 : ℤ) + resWeight + 1)
    (hcarries : ∀ resRscale ndigits (n : ℕ),
      Carries nbase (step var1.digits var2.digits (resRscale + var1.weight + 1)
        (resRscale + var2.weight + 1) ndigits) id (term resRscale ndigits) (fun _ => inv) n)
    (hterm : ∀ resRscale (n : ℕ), resRscale = max (var1.digits.length - var1.weight - 1)
        (var2.digits.length - var2.weight - 1 : ℤ) →
      (n : ℤ) = resRscale + resWeight + 1 →
      (upTo nbase (term resRscale n) n : ℚ) = m * 10000 ^ resRscale)
    (hinv : inv 0) (hend : ∀ (n : ℕ) (out carry : ℤ), 0 ≤ out → out < nbase ^ n → inv carry →
      (((out + nbase ^ n * carry : ℤ) : ℚ) * 10000 ^ (resWeight + 1 - n) = m) → carry = 0) :
    ∃ result, alignedLoop step var1 var2 resWeight = .ok result ∧ HasMagnitude var1 var2 m result := by
  obtain ⟨hr1, hr2, hsize⟩ := hfits
  rw [alignedLoop, ndigits, ndigits, int_ok hr1, ok_bind, int_ok hr2, ok_bind]
  generalize hR : max (var1.digits.length - var1.weight - 1) (var2.digits.length - var2.weight - 1 : ℤ) =
    resRscale at *
  obtain ⟨n, hn⟩ := eq_ofNat_of_zero_le hpos.le
  have hint : IsInt (resRscale + resWeight + 1) := by
    unfold IsInt intMax
    rw [maxAllocSize] at hsize
    omega
  have halloc : ((n : ℤ) + 1).toNat * 2 ≤ maxAllocSize := by omega
  dsimp only
  rw [int_ok hint, ok_bind, if_neg (by omega), hn, digitbufAlloc, alloc_ok halloc, toNat_natCast]
  obtain ⟨out, carry, hrun, hcarry, hdigits, hlength, hvalue⟩ := (hcarries resRscale n n).run hinv
  have hmag : ((value nbase out + nbase ^ n * carry : ℤ) : ℚ) * 10000 ^ (resWeight + 1 - n) = m := by
    have hexp : resWeight + 1 - (n : ℤ) = -resRscale := by omega
    rw [id, id, add_zero] at hvalue
    rw [hvalue, hterm resRscale n rfl hn.symm, hexp, mul_assoc, ← zpow_add₀ (by norm_num),
      add_neg_cancel, zpow_zero, mul_one]
  have hlt := hdigits.value_lt nbase_pos
  rw [hlength] at hlt
  have hzero := hend n (value nbase out) carry (hdigits.nonneg nbase_pos.le) hlt hcarry hmag
  rw [hrun, hzero]
  refine ⟨_, rfl, ⟨hdigits, ?_, rfl⟩⟩
  rw [hzero, mul_zero, add_zero] at hmag
  rw [magnitude, magnitudeOf, hlength, hmag]

section Store

variable {ι : Type} [DecidableEq ι] {s s' : ι → NumericVar} {var1 var2 result : ι}

/-- The variable `result` becomes one with the absolute value `m`; no other variable changes. -/
def StoresMagnitude (s : ι → NumericVar) (var1 var2 result : ι) (m : ℚ) (s' : ι → NumericVar) : Prop :=
  ∃ stripped, s' = Function.update s result stripped ∧ Digits nbase stripped.digits ∧
    stripped.digits.head? ≠ some 0 ∧
    stripped.digits.getLast? ≠ some 0 ∧ stripped.magnitude = m ∧
    stripped.dscale = max (s var1).dscale (s var2).dscale

theorem storesMagnitude_stripVar {res : NumericVar} (h : HasMagnitude (s var1) (s var2) m res)
    (sign : Sign) :
    StoresMagnitude s var1 var2 result m (update s result (stripVar { res with sign := sign })) := by
  have hstrip : Stripped { res with sign := sign } (stripVar { res with sign := sign }) :=
    stripVar_spec h.digits
  exact ⟨_, rfl, hstrip.digits, hstrip.head, hstrip.last, hstrip.magnitude.trans h.magnitude,
    hstrip.dscale.trans h.dscale⟩

structure AddFits (var1 var2 : NumericVar) :
    Prop extends FrameFits var1 var2 (max var1.weight var2.weight + 1) where
  weight : IsInt (max var1.weight var2.weight + 1)

theorem addAbs_spec (h1 : Digits nbase (s var1).digits) (h2 : Digits nbase (s var2).digits)
    (hfits : AddFits (s var1) (s var2)) :
    ∃ s', addAbs s var1 var2 result = .ok s' ∧
      StoresMagnitude s var1 var2 result ((s var1).magnitude + (s var2).magnitude) s' := by
  have hspec :
    ∃ res, alignedLoop addStep (s var1) (s var2) (max (s var1).weight (s var2).weight + 1) = .ok res ∧
      HasMagnitude (s var1) (s var2) ((s var1).magnitude + (s var2).magnitude) res := by
    refine alignedLoop_spec hfits.toFrameFits (by omega)
      (fun resRscale ndigits n => addStep_carries h1 h2 _ _ resRscale ndigits n) ?_
      ⟨le_rfl, by decide⟩ ?_
    · intro resRscale n hR hn
      rw [upTo_add, cast_add, upTo_operandTerm ⟨by omega, .inr (by omega)⟩ hn,
        upTo_operandTerm ⟨by omega, .inr (by omega)⟩ hn, ← add_mul]
      rfl
    intro n out carry hout _ hcarry hsum
    -- the sum has no digit above the frame
    have hlt : (s var1).magnitude + (s var2).magnitude <
        10000 ^ (max (s var1).weight (s var2).weight + 1 + 1) := by
      have hb : ∀ w ≤ max (s var1).weight (s var2).weight,
          (10000 : ℚ) ^ (w + 1) ≤ 10000 ^ (max (s var1).weight (s var2).weight + 1) :=
        fun w hw => zpow_le_zpow_right₀ (by norm_num) (by omega)
      have hlt1 := lt_of_lt_of_le (magnitudeOf_lt h1 (s var1).weight) (hb _ (le_max_left _ _))
      have hlt2 := lt_of_lt_of_le (magnitudeOf_lt h2 (s var2).weight) (hb _ (le_max_right _ _))
      have hpos : (0 : ℚ) < 10000 ^ (max (s var1).weight (s var2).weight + 1) := by positivity
      rw [zpow_add_one₀ (by norm_num)]
      unfold magnitude
      linarith
    have hbound : ((out + nbase ^ n * carry : ℤ) : ℚ) < ((nbase ^ n : ℤ) : ℚ) := by
      have hpow : (10000 : ℚ) ^ (max (s var1).weight (s var2).weight + 1 + 1) =
          ((nbase ^ n : ℤ) : ℚ) * 10000 ^ (max (s var1).weight (s var2).weight + 1 + 1 - (n : ℤ)) := by
        push_cast
        rw [nbase_cast, ← zpow_natCast, ← zpow_add₀ (by norm_num)]
        congr 1
        ring
      rw [← hsum, hpow] at hlt
      exact lt_of_mul_lt_mul_right hlt (by positivity)
    have hint : out + nbase ^ n * carry < nbase ^ n := by exact_mod_cast hbound
    by_contra hne
    obtain rfl : carry = 1 := by omega
    linarith
  obtain ⟨res, hres, hmag⟩ := hspec
  refine ⟨_, ?_, storesMagnitude_stripVar hmag (s result).sign⟩
  rw [addAbs, int_ok hfits.weight, ok_bind, hres]
  rfl

theorem weight_le_of_magnitude_le {v1 v2 : NumericVar} (h1 : Digits nbase v1.digits) (h2 : v2.Normalised)
    (hle : v2.magnitude ≤ v1.magnitude) :
    v2.digits = [] ∨ v2.weight ≤ v1.weight := by
  by_contra hnot
  rw [not_or] at hnot
  obtain ⟨hne, hlt⟩ := hnot
  have hhead : v2.digits.head hne ≠ 0 := fun hzero => h2.head (by rw [head?_eq_some_head hne, hzero])
  have hvalue : ((nbase ^ (v2.digits.length - 1) : ℤ) : ℚ) ≤ value nbase v2.digits := by
    exact_mod_cast h2.digits.le_value nbase_pos hne hhead
  have hlength := length_pos_iff.2 hne
  have hmag2 : (10000 : ℚ) ^ v2.weight ≤ v2.magnitude := by
    have hpow : (10000 : ℚ) ^ v2.weight = 10000 ^ (v2.digits.length - 1) *
        10000 ^ (v2.weight + 1 - v2.digits.length) := by
      rw [← zpow_natCast, ← zpow_add₀ (by norm_num)]
      congr 1
      omega
    rw [hpow]
    push_cast at hvalue
    exact mul_le_mul_of_nonneg_right hvalue (by positivity)
  have hmag1 := magnitudeOf_lt h1 v1.weight
  have hpow : (10000 : ℚ) ^ (v1.weight + 1) ≤ 10000 ^ v2.weight :=
    zpow_le_zpow_right₀ (by norm_num) (by omega)
  unfold magnitude at *
  linarith

theorem AddFits.symm {v1 v2 : NumericVar} (h : AddFits v1 v2) : AddFits v2 v1 := by
  refine ⟨⟨h.rscale2, h.rscale1, ?_⟩, ?_⟩
  · rw [max_comm v2.weight, max_comm (v2.digits.length - v2.weight - 1 : ℤ)]
    exact h.size
  · rw [max_comm]
    exact h.weight

theorem subAbs_spec (h1 : (s var1).Normalised) (h2 : (s var2).Normalised)
    (hfits : AddFits (s var1) (s var2)) (hlt : (s var2).magnitude < (s var1).magnitude) :
    ∃ s', subAbs s var1 var2 result = .ok s' ∧
      StoresMagnitude s var1 var2 result ((s var1).magnitude - (s var2).magnitude) s' := by
  have hfirst := weight_le_of_magnitude_le h1.digits h2 hlt.le
  have hne : (s var1).digits ≠ [] := fun hnil => by
    have hzero : (s var1).magnitude = 0 := by rw [magnitude, hnil, magnitudeOf_nil]
    have := h2.magnitude_nonneg
    linarith
  have hlength := length_pos_iff.2 hne
  have hframe : FrameFits (s var1) (s var2) (s var1).weight :=
    ⟨hfits.rscale1, hfits.rscale2, by have := hfits.size; omega⟩
  have hspec : ∃ res, alignedLoop subStep (s var1) (s var2) (s var1).weight = .ok res ∧
      HasMagnitude (s var1) (s var2) ((s var1).magnitude - (s var2).magnitude) res := by
    refine alignedLoop_spec hframe (by omega)
      (fun resRscale ndigits n => subStep_carries h1.digits h2.digits _ _ resRscale ndigits n) ?_
      ⟨by decide, le_rfl⟩ ?_
    · intro resRscale n hR hn
      rw [upTo_sub, cast_sub, upTo_operandTerm ⟨by omega, .inr le_rfl⟩ hn,
        upTo_operandTerm ⟨by omega, hfirst⟩ hn, ← sub_mul]
      rfl
    intro n out borrow _ hout hborrow hdiff
    -- the difference is not negative
    have hnonneg : (0 : ℚ) ≤ ((out + nbase ^ n * borrow : ℤ) : ℚ) := by
      have hpos : (0 : ℚ) < 10000 ^ ((s var1).weight + 1 - (n : ℤ)) := by positivity
      refine nonneg_of_mul_nonneg_left ?_ hpos
      linarith
    have hint : 0 ≤ out + nbase ^ n * borrow := by exact_mod_cast hnonneg
    by_contra hne
    obtain rfl : borrow = -1 := by omega
    linarith
  obtain ⟨res, hres, hmag⟩ := hspec
  refine ⟨_, ?_, storesMagnitude_stripVar hmag (s result).sign⟩
  rw [subAbs, hres]
  rfl

/-- The variable `result` becomes the number `x`, normalised and with the greater scale. -/
def StoresSum (s : ι → NumericVar) (var1 var2 result : ι) (x : ℚ) (s' : ι → NumericVar) : Prop :=
  ∃ sum, s' = Function.update s result sum ∧ sum.Normalised ∧ sum.toRat = x ∧
    sum.dscale = max (s var1).dscale (s var2).dscale

theorem StoresMagnitude.setSign (h : StoresMagnitude s var1 var2 result m s') (sign : Sign)
    (hsign : sign ≠ .nan) :
    StoresSum s var1 var2 result (if sign = .neg then -m else m) (setSign s' result sign) := by
  obtain ⟨stripped, rfl, hdigits, hhead, hlast, hmag, hdscale⟩ := h
  refine ⟨{ stripped with sign := sign }, ?_, ⟨⟨hdigits, hsign⟩, hhead, hlast⟩, ?_, hdscale⟩
  · rw [Numeric.setSign, update_self, update_idem]
  · rw [← hmag]
    rfl

theorem StoresSum.swap {x : ℚ} (h : StoresSum s var1 var2 result x s') :
    StoresSum s var2 var1 result x s' := by
  obtain ⟨sum, heq, hnormal, hrat, hdscale⟩ := h
  exact ⟨sum, heq, hnormal, hrat, by rw [hdscale, max_comm]⟩

theorem zeroVar_dscale (s : ι → NumericVar) (result var : ι) :
    (update s result (zeroVar (s result)) var).dscale = (s var).dscale := by
  by_cases h : var = result
  · rw [h, update_self]
    rfl
  · rw [update_of_ne h]

section

variable (h1 : (s var1).Normalised) (h2 : (s var2).Normalised) (hfits : AddFits (s var1) (s var2))
include h1 h2 hfits

/-- The difference of the absolute values, where `greater` is the sign if the first is greater. -/
theorem subByMagnitude_spec (result : ι) {greater less : Sign}
    (hsigns : greater = .pos ∧ less = .neg ∨ greater = .neg ∧ less = .pos) :
    ∃ s', subByMagnitude s var1 var2 result greater less = .ok s' ∧
      StoresSum s var1 var2 result (if greater = .neg then -((s var1).magnitude - (s var2).magnitude)
        else (s var1).magnitude - (s var2).magnitude) s' := by
  unfold subByMagnitude
  rcases cmpAbs_compares h1.digits h2.digits with ⟨hr, heq⟩ | ⟨hr, hlt⟩ | ⟨hr, hlt⟩
  · rw [hr]
    refine ⟨_, rfl, _, update_idem _ _ _, ⟨⟨?_, ?_⟩, ?_, ?_⟩, ?_, ?_⟩
    all_goals rw [update_self]
    · exact fun d hd => absurd hd not_mem_nil
    · exact nofun
    · exact nofun
    · exact nofun
    · rw [heq, sub_self, neg_zero, ite_self]
      exact magnitudeOf_nil 0
    · rw [zeroVar_dscale, zeroVar_dscale]
  · obtain ⟨s', hs', hmag⟩ : ∃ s', subAbs s var1 var2 result = .ok s' ∧ _ := subAbs_spec h1 h2 hfits hlt
    refine ⟨setSign s' result greater, ?_, hmag.setSign greater ?_⟩
    · rw [hr]
      rw [hs']
      rfl
    · rcases hsigns with ⟨rfl, -⟩ | ⟨rfl, -⟩ <;> exact nofun
  obtain ⟨s', hs', hmag⟩ : ∃ s', subAbs s var2 var1 result = .ok s' ∧ _ :=
    subAbs_spec h2 h1 hfits.symm hlt
  refine ⟨setSign s' result less, ?_, ?_⟩
  · rw [hr]
    rw [hs']
    rfl
  have hstore := (hmag.setSign less (by rcases hsigns with ⟨-, rfl⟩ | ⟨-, rfl⟩ <;> exact nofun)).swap
  rcases hsigns with ⟨rfl, rfl⟩ | ⟨rfl, rfl⟩
  · simpa using hstore
  · simpa using hstore

theorem addAbs_setSign_spec (result : ι) (sign : Sign) (hsign : sign ≠ .nan) :
    ∃ s', (addAbs s var1 var2 result >>= fun s' => pure (setSign s' result sign)) = .ok s' ∧
      StoresSum s var1 var2 result (if sign = .neg then -((s var1).magnitude + (s var2).magnitude)
        else (s var1).magnitude + (s var2).magnitude) s' := by
  obtain ⟨s', hs', hmag⟩ : ∃ s', addAbs s var1 var2 result = .ok s' ∧ _ :=
    addAbs_spec h1.digits h2.digits hfits
  refine ⟨setSign s' result sign, ?_, hmag.setSign sign hsign⟩
  rw [hs']
  rfl

theorem addVar_subVar_spec :
    (∃ s', addVar s var1 var2 result = .ok s' ∧
      StoresSum s var1 var2 result ((s var1).toRat + (s var2).toRat) s') ∧
      ∃ s', subVar s var1 var2 result = .ok s' ∧
        StoresSum s var1 var2 result ((s var1).toRat - (s var2).toRat) s' := by
  have hposneg := subByMagnitude_spec h1 h2 hfits result (.inl ⟨rfl, rfl⟩)
  have hnegpos := subByMagnitude_spec h1 h2 hfits result (.inr ⟨rfl, rfl⟩)
  have hpos := addAbs_setSign_spec h1 h2 hfits result .pos nofun
  have hneg := addAbs_setSign_spec h1 h2 hfits result .neg nofun
  unfold addVar subVar toRat
  rcases hs1 : (s var1).sign with _ | _ | _
  · rcases hs2 : (s var2).sign with _ | _ | _
    · exact ⟨by simpa using hpos, by simpa using hposneg⟩
    · exact ⟨by simpa [sub_eq_add_neg] using hposneg, by simpa using hpos⟩
    · exact absurd hs2 h2.number
  · rcases hs2 : (s var2).sign with _ | _ | _
    · exact ⟨by simpa [sub_eq_add_neg, add_comm] using hnegpos,
        by simpa [sub_eq_add_neg, add_comm] using hneg⟩
    · exact ⟨by simpa [add_comm] using hneg, by simpa [sub_eq_add_neg, add_comm] using hnegpos⟩
    · exact absurd hs2 h2.number
  · exact absurd hs1 h1.number

end

/-- The operands are added and subtracted exactly, into any variable. -/
theorem addVar_subVar_exact (h1 : (s var1).Normalised) (h2 : (s var2).Normalised)
    (hfits : AddFits (s var1) (s var2)) :
    (∃ s', addVar s var1 var2 result = .ok s' ∧
      StoresSum s var1 var2 result ((s var1).toRat + (s var2).toRat) s') ∧
      ∃ s', subVar s var1 var2 result = .ok s' ∧
        StoresSum s var1 var2 result ((s var1).toRat - (s var2).toRat) s' :=
  addVar_subVar_spec h1 h2 hfits

end Store

/-- 20001.5 and -0.0003, where the sum replaces the first -/
theorem addVar_subVar_exact_alias :
    let s : Bool → NumericVar :=
      fun var => if var then ⟨[], [2, 1, 5000], 1, .pos, 1⟩ else ⟨[], [3], -1, .neg, 4⟩
    ∃ s', addVar s true false true = .ok s' ∧
    StoresSum s true false true ((s true).toRat + (s false).toRat) s' := by
  intro s
  have h1 : (s true).Normalised := by decide
  have h2 : (s false).Normalised := by decide
  have hfits : AddFits (s true) (s false) := ⟨⟨by decide, by decide, by decide⟩, by decide⟩
  exact (addVar_subVar_exact h1 h2 hfits).1

/-- The digits between two numbers of very different weight are too many to allocate. -/
theorem addVar_too_many_digits :
    let s : Bool → NumericVar :=
      fun var => if var then ⟨[], [1], 2 ^ 30, .pos, 0⟩ else ⟨[], [1], 0, .pos, 0⟩
    (s true).Normalised ∧ (s false).Normalised ∧
    addVar s true false true = .error (.backend (.allocSize 2147483654)) := by
  exact ⟨by decide, by decide, by decide +kernel⟩

end Pg.Numeric
