import PgRetrofit.Sanity.NumericDivStep

/-! `div_var` gives the quotient rounded half away from zero, or truncated, at the result scale. -/

namespace Pg.Numeric

open Positional LongDivision Rounding List Result Int NumericVar

variable {divisor dividend : List ℤ} {divisor1 divisor2 : ℤ} {n : ℕ}
  {digits : List ℤ} {rounds : ℕ} {d : ℤ}

theorem longDivision_spec (hdivisor : IsDivisor divisor divisor1 divisor2 n) {original : List ℤ} {j : ℕ}
    (hdigits : Digits nbase dividend) (hlength : dividend.length = original.length)
    (hrest : dividend.drop (j + n) = original.drop (j + n)) (hroom : j + rounds + n ≤ dividend.length)
    (h : Divided nbase (value nbase divisor) original (j + n) digits
      (value nbase (dividend.take (j + n)))) :
    ∃ out rest, longDivision divisor divisor1 divisor2 n rounds j dividend digits = .ok out ∧
      Divided nbase (value nbase divisor) original (j + rounds + n) out rest ∧
      out.length = digits.length + rounds := by
  induction rounds generalizing j dividend digits with
  | zero => exact ⟨digits, _, rfl, h, rfl⟩
  | succ rounds ih => ?_
  have hlen : j + n < dividend.length := by omega
  obtain ⟨digit, dividend', hstep, hfound⟩ := divStep_spec hdivisor hdigits hlen h.range.2
  have horig : j + n < original.length := by omega
  have hnext : dividend[j + n] = original[j + n] := by
    have hhead := congrArg head? hrest
    rw [head?_drop, head?_drop, getElem?_eq_getElem hlen, getElem?_eq_getElem horig] at hhead
    exact Option.some.inj hhead
  have htake' : Digits nbase (dividend'.take (j + (n + 1))) := hfound.digits.mono (take_subset _ _)
  have hdivision : value nbase (dividend.take (j + n)) * nbase + original[j + n] =
      digit * value nbase divisor + value nbase (dividend'.take (j + (n + 1))) := by
    rw [← hfound.division, ← add_assoc, value_take_succ hlen, hnext]
  have hdivided := h.step horig hfound.quotient ⟨htake'.nonneg nbase_pos.le, hfound.range⟩ hdivision
  rw [show j + n + 1 = j + 1 + n by omega, show j + (n + 1) = j + 1 + n by omega] at hdivided
  have hrest' : dividend'.drop (j + 1 + n) = original.drop (j + 1 + n) := by
    have hdrop := congrArg (drop 1) hrest
    rw [drop_drop, drop_drop, show j + n + 1 = j + (n + 1) by omega] at hdrop
    rw [show j + 1 + n = j + (n + 1) by omega, hfound.rest, hdrop]
  obtain ⟨out, rest, hout, hfinal, houtlen⟩ :=
    ih hfound.digits (hfound.length.trans hlength) hrest' (by rw [hfound.length]; omega) hdivided
  refine ⟨out, rest, ?_, ?_, ?_⟩
  · rw [longDivision, hstep]
    exact hout
  · rw [show j + (rounds + 1) + n = j + 1 + rounds + n by omega]
    exact hfinal
  · rw [houtlen, length_append, length_singleton]
    omega

theorem shortDivision_spec (hdigits : Digits nbase dividend) (hdivisor : 1 ≤ divisor1 ∧ divisor1 < nbase)
    {i : ℕ} {carry : ℤ} (hroom : i + rounds < dividend.length)
    (h : Divided nbase divisor1 dividend (i + 1) digits carry) :
    ∃ out rest, shortDivision dividend divisor1 rounds i carry digits = .ok out ∧
      Divided nbase divisor1 dividend (i + rounds + 1) out rest ∧
      out.length = digits.length + rounds := by
  induction rounds generalizing i carry digits with
  | zero => exact ⟨digits, carry, rfl, h, rfl⟩
  | succ rounds ih => ?_
  have hi : i + 1 < dividend.length := by omega
  obtain ⟨hlow, hhigh⟩ := hdigits _ (getElem_mem hi)
  obtain ⟨hcarry0, hcarry1⟩ := h.range
  have hsum0 : 0 ≤ carry * nbase + dividend[i + 1] := add_nonneg (mul_nonneg hcarry0 nbase_pos.le) hlow
  have hsum1 : carry * nbase + dividend[i + 1] < divisor1 * nbase := by nlinarith [nbase_pos]
  have hint : IsInt (carry * nbase + dividend[i + 1]) := by
    unfold IsInt intMax nbase at *
    omega
  rw [shortDivision, read_ok hi, ok_bind, int_ok hint]
  have hpos : 0 < divisor1 := by omega
  have hquot : 0 ≤ (carry * nbase + dividend[i + 1]) / divisor1 ∧
      (carry * nbase + dividend[i + 1]) / divisor1 < nbase :=
    ⟨Int.ediv_nonneg hsum0 hpos.le, Int.ediv_lt_of_lt_mul hpos (by linarith)⟩
  have hdivided := h.step hi hquot ⟨emod_nonneg _ hpos.ne', emod_lt_of_pos _ hpos⟩
    (show carry * nbase + dividend[i + 1] = _ by
      rw [mul_comm ((carry * nbase + dividend[i + 1]) / divisor1), mul_ediv_add_emod])
  obtain ⟨out, rest, hout, hfinal, hlength⟩ := ih (by omega) hdivided
  refine ⟨out, rest, hout, ?_, ?_⟩
  · rw [show i + (rounds + 1) + 1 = i + 1 + rounds + 1 by omega]
    exact hfinal
  · rw [hlength, length_append, length_singleton]
    omega

theorem scaleStep_carries (hdigits : Digits nbase digits) (hd : 0 ≤ d ∧ d < nbase) (k m : ℕ)
    (hlen : k + m ≤ digits.length) :
    Carries nbase (fun i => scaleStep digits d (k + i)) id (fun i => digits.getD (k + i) 0 * d)
      (fun _ carry => 0 ≤ carry ∧ carry ≤ d) m := by
  refine ⟨fun i hi carry hcarry => ?_⟩
  have hi' : k + i < digits.length := by omega
  obtain ⟨hlow, hhigh⟩ := hdigits _ (getElem_mem hi')
  have hprod0 : 0 ≤ digits[k + i] * d := mul_nonneg hlow hd.1
  have hprod1 : digits[k + i] * d ≤ (nbase - 1) * d := mul_le_mul_of_nonneg_right (by omega) hd.1
  have hint : IsInt (carry + digits[k + i] * d) := by
    unfold IsInt intMax nbase at *
    omega
  rw [scaleStep, read_ok hi', ok_bind, int_ok hint]
  simp only [getD_eq_getElem _ _ hi', id]
  have hdiv := mul_ediv_add_emod (carry + digits[k + i] * d) nbase
  have hquot : (carry + digits[k + i] * d) / nbase ≤ d := Int.ediv_le_of_le_mul nbase_pos (by linarith)
  exact ⟨_, _, rfl, ⟨ediv_nonneg (by linarith [hcarry.1]) nbase_pos.le, hquot⟩,
    emod_nonneg _ nbase_pos.ne', emod_lt_of_pos _ nbase_pos, by linear_combination hdiv⟩

theorem scaleLoop_spec (hdigits : Digits nbase digits) (hd : 0 ≤ d ∧ d < nbase) (k m : ℕ)
    (hlen : k + m ≤ digits.length) (hfits : value nbase ((digits.drop k).take m) * d < nbase ^ m) :
    ∃ out, carryLoop (fun i => scaleStep digits d (k + i)) m 0 [] = .ok (out, (0 : ℤ)) ∧
      Digits nbase out ∧ out.length = m ∧
      value nbase out = value nbase ((digits.drop k).take m) * d := by
  have hzero : (0 : ℤ) ≤ 0 ∧ (0 : ℤ) ≤ d := ⟨le_rfl, hd.1⟩
  obtain ⟨out, carry, hrun, ⟨hcarry, -⟩, hout, hlength, hvalue⟩ :=
    (scaleStep_carries hdigits hd k m hlen).run hzero
  rw [upTo_mul, upTo_window m hlen, id, id] at hvalue
  have hnonneg := hout.nonneg nbase_pos.le
  have hpow : 0 < nbase ^ m := pow_pos nbase_pos m
  obtain rfl : carry = 0 := by
    by_contra hne
    have : 1 ≤ carry := by omega
    nlinarith
  exact ⟨out, hrun, hout, hlength, by simpa using hvalue⟩

abbrev padded (digits : List ℤ) (k : ℕ) : List ℤ := 0 :: digits ++ List.replicate k 0

theorem digits_padded (h : Digits nbase digits) (k : ℕ) : Digits nbase (padded digits k) :=
  (Digits.cons ⟨le_rfl, nbase_pos⟩ h).append fun _ hd =>
    (eq_of_mem_replicate hd).symm ▸ ⟨le_rfl, nbase_pos⟩

/-- Both operands, multiplied by the same factor. -/
structure Scaled (dividend divisor dividend' divisor' : List ℤ) (n : ℕ) : Prop where
  factor : ∃ d, 0 < d ∧ value nbase dividend' = value nbase dividend * d ∧
    value nbase divisor' = value nbase divisor * d
  digits : Digits nbase dividend'
  length : dividend'.length = dividend.length
  isDivisor : ∃ divisor1 divisor2, IsDivisor divisor' divisor1 divisor2 n

theorem scale_spec (hdigits : Digits nbase digits) (hd : 0 ≤ d ∧ d < nbase) {m : ℕ}
    (hlen : m < digits.length) (hzero : value nbase (digits.drop (m + 1)) = 0)
    (hfits : value nbase (digits.take (m + 1)) * d < nbase ^ (m + 1)) :
    ∃ out, scale digits m d = .ok out ∧ Digits nbase out ∧ out.length = digits.length ∧
      value nbase out = value nbase digits * d := by
  obtain ⟨front, hrun, hfront, hlength, hvalue⟩ :=
    scaleLoop_spec hdigits hd 0 (m + 1) (by omega) (by simpa using hfits)
  simp only [zero_add, drop_zero] at hrun hvalue
  have hsplit := value_append (b := nbase) (digits.take (m + 1)) (digits.drop (m + 1))
  rw [take_append_drop, hzero] at hsplit
  rw [scale, hrun]
  refine ⟨_, rfl, hfront.append (hdigits.mono (drop_subset _ _)), ?_, ?_⟩
  · rw [length_append, length_drop]
    omega
  · rw [value_append, hzero, hvalue, hsplit]
    ring

theorem scaleOperands_spec {digits1 digits2 : List ℤ} (h1 : Digits nbase digits1)
    (h2 : Digits nbase digits2) (hlen2 : 2 ≤ digits2.length) (hne : digits2.head? ≠ some 0) (k : ℕ) :
    ∃ dividend' divisor', scaleOperands (padded digits1 k) (0 :: digits2) digits1.length digits2.length =
      .ok (dividend', divisor') ∧
      Scaled (padded digits1 k) (0 :: digits2) dividend' divisor' digits2.length := by
  match digits2, hlen2 with
  | first :: second :: rest, _ =>
    generalize htl : second :: rest = tail at *
    have hfirst0 : first ≠ 0 := fun hzero => hne (by rw [hzero]; rfl)
    obtain ⟨hlow, hhigh⟩ := h2 first mem_cons_self
    have hdividend := digits_padded h1 k
    have hdivisor : Digits nbase (0 :: first :: tail) := Digits.cons ⟨le_rfl, nbase_pos⟩ h2
    rw [scaleOperands, read_ok (show 1 < (0 :: first :: tail).length by simp), ok_bind,
      getElem_cons_succ, getElem_cons_zero]
    split
    next hsmall =>
      have hrange : 0 < first ∧ first < nbase / 2 := ⟨by omega, hsmall⟩
      obtain ⟨hd0, hdle, hdge⟩ := scale_factor (by decide) hrange rfl
      dsimp only
      generalize nbase / (first + 1) = d at *
      have hd : d < nbase := by nlinarith
      have hvalue2 := value_cons (b := nbase) first tail
      have htail : Digits nbase tail := h2.mono (subset_cons_self _ _)
      have htail0 := htail.nonneg nbase_pos.le
      have htail1 := htail.value_lt nbase_pos
      have hpow : 0 < nbase ^ tail.length := pow_pos nbase_pos _
      -- the divisor keeps its length
      have hfits2 : value nbase (((0 :: first :: tail).drop 1).take (first :: tail).length) * d <
          nbase ^ (first :: tail).length := by
        have hpow2 : nbase ^ (first :: tail).length = nbase ^ tail.length * nbase :=
          pow_succ nbase tail.length
        rw [drop_one, tail_cons, take_length, hvalue2]
        have : (first * nbase ^ tail.length + value nbase tail) * d <
          (first + 1) * d * nbase ^ tail.length := by nlinarith
        have := mul_le_mul_of_nonneg_right hdle hpow.le
        linarith
      obtain ⟨out, hrun, hout, houtlen, houtvalue⟩ :=
        scaleLoop_spec hdivisor ⟨hd0.le, hd⟩ 1 (first :: tail).length (by simp [add_comm]) hfits2
      rw [drop_one, tail_cons, take_length] at houtvalue
      have hrun' : carryLoop (fun i => scaleStep (0 :: first :: tail) d (i + 1)) (first :: tail).length 0
          [] = .ok (out, (0 : ℤ)) := by
        simpa only [add_comm] using hrun
      have hfront : (padded digits1 k).take (digits1.length + 1) = 0 :: digits1 := take_left' (by simp)
      have hback : (padded digits1 k).drop (digits1.length + 1) = replicate k 0 := drop_left' (by simp)
      have hfits1 : value nbase ((padded digits1 k).take (digits1.length + 1)) * d <
          nbase ^ (digits1.length + 1) := by
        rw [hfront, value_cons, zero_mul, zero_add]
        exact mul_lt_mul'' (h1.value_lt nbase_pos) hd (h1.nonneg nbase_pos.le) hd0.le
      obtain ⟨dividend', hscale, hdividend', hlength', hvalue'⟩ := scale_spec hdividend ⟨hd0.le, hd⟩
        (show digits1.length < (padded digits1 k).length by rw [length_append, length_cons]; omega)
        (by rw [hback, value_replicate_zero]) hfits1
      subst htl
      rcases out with _ | ⟨a, _ | ⟨b, rest'⟩⟩
      · cases houtlen
      · cases houtlen
      · simp only [length_cons] at houtlen
        -- the first digit of the divisor is at least half of the base
        have hhalf : halfNbase ≤ a := by
          have hnew := value_cons (b := nbase) a (b :: rest')
          have htail' : Digits nbase (b :: rest') := hout.mono (subset_cons_self _ _)
          have htail1' := htail'.value_lt nbase_pos
          have hsame : (b :: rest').length = (second :: rest).length := by simp only [length_cons]; omega
          rw [hsame] at hnew htail1'
          by_contra hlt
          have hlt' : a + 1 ≤ first * d := by
            have : halfNbase ≤ first * d := hdge
            omega
          nlinarith
        rw [hrun', ok_bind]
        rw [assert_ok rfl, ok_bind, hscale, ok_bind]
        simp only [take_succ_cons, take_zero, singleton_append]
        rw [read_ok (show 1 < (0 :: a :: b :: rest').length by simp), ok_bind, getElem_cons_succ,
          getElem_cons_zero, assert_ok hhalf]
        refine ⟨_, _, rfl, ⟨⟨d, hd0, hvalue', ?_⟩, hdividend', hlength', a, b, ⟨rest', rfl, by omega⟩,
          Digits.cons ⟨le_rfl, nbase_pos⟩ hout, le_trans (by decide) hhalf⟩⟩
        rw [value_cons, value_cons 0, houtvalue]
        ring
    next hlarge =>
      subst htl
      exact ⟨_, _, rfl, ⟨⟨1, one_pos, by ring, by ring⟩, hdividend, rfl, first, second,
        ⟨rest, rfl, by simp⟩, hdivisor, by omega⟩⟩

theorem value_dividend (digits : List ℤ) (k : ℕ) :
    value nbase (padded digits k) = value nbase digits * nbase ^ k := by
  rw [value_append, value_cons, value_replicate_zero, length_replicate, zero_mul, zero_add, add_zero]

theorem quotientDigits_spec {digits1 digits2 : List ℤ} (h1 : Digits nbase digits1)
    (h2 : Digits nbase digits2) (hne2 : digits2 ≠ []) (hhead : digits2.head? ≠ some 0) {k : ℕ}
    (hroom : rounds + digits2.length ≤ digits1.length + k) :
    ∃ out, quotientDigits (padded digits1 k) (0 :: digits2) digits1.length digits2.length rounds =
      .ok out ∧ Digits nbase out ∧ out.length = rounds ∧
      value nbase out = value nbase digits1 * nbase ^ k /
        (value nbase digits2 * nbase ^ (digits1.length + k + 1 - (rounds + digits2.length))) := by
  have hdividend := digits_padded h1 k
  have hlength : (padded digits1 k).length = digits1.length + k + 1 := by
    simp only [length_append, length_cons, length_replicate]
    omega
  unfold quotientDigits
  split
  next hone =>
    obtain ⟨first, rfl⟩ := length_eq_one_iff.1 hone
    obtain ⟨hlow, hhigh⟩ := h2 first (mem_singleton_self first)
    have hfirst : first ≠ 0 := fun hzero => hhead (by rw [hzero]; rfl)
    have hstart : Divided nbase first (padded digits1 k) (0 + 1) [] 0 := by
      refine ⟨fun d hd => absurd hd not_mem_nil, ⟨le_rfl, by omega⟩, ?_⟩
      simp [value]
    obtain ⟨out, rest, hout, hdivided, houtlen⟩ := shortDivision_spec hdividend ⟨by omega, hhigh⟩
      (show 0 + rounds < (padded digits1 k).length by omega) hstart
    refine ⟨out, hout, hdivided.digits, by simpa using houtlen, ?_⟩
    have hvalue : value nbase [first] = first := by simp [value]
    rw [hdivided.quotient_eq, hdividend.value_take nbase_pos, hlength, value_dividend,
      ediv_ediv_of_nonneg (pow_pos nbase_pos _).le, hvalue, mul_comm first, length_singleton, zero_add]
  rename_i hmany
  have hlen2 := length_pos_iff.2 hne2
  obtain ⟨dividend', divisor', hscale, hscaled⟩ := scaleOperands_spec h1 h2 (by omega) hhead k
  obtain ⟨d, hd, hvalue1, hvalue2⟩ := hscaled.factor
  obtain ⟨divisor1, divisor2, hdivisor⟩ := hscaled.isDivisor
  have hlength' := hscaled.length.trans hlength
  have hV : value nbase (0 :: digits2) = value nbase digits2 := by rw [value_cons, zero_mul, zero_add]
  rw [hV] at hvalue2
  rw [value_dividend] at hvalue1
  have hhead2 : digits2.head hne2 ≠ 0 := fun hzero => hhead (by rw [head?_eq_some_head hne2, hzero])
  have hle := h2.le_value nbase_pos hne2 hhead2
  obtain ⟨tail, hshape, -⟩ := hdivisor.shape
  have hread1 : read divisor' 1 = .ok divisor1 := by rw [hshape]; rfl
  have hread2 : read divisor' 2 = .ok divisor2 := by rw [hshape]; rfl
  rw [hscale, ok_bind]
  dsimp only
  rw [hread1, hread2]
  have htake : Digits nbase (dividend'.take (0 + digits2.length)) :=
    hscaled.digits.mono (take_subset _ _)
  -- the first digits of the dividend are less than the divisor
  have hrange : value nbase (dividend'.take (0 + digits2.length)) < value nbase divisor' := by
    rw [zero_add, hscaled.digits.value_take nbase_pos, hlength', hvalue1, hvalue2]
    refine Int.ediv_lt_of_lt_mul (pow_pos nbase_pos _) ?_
    have hlt : value nbase digits1 * nbase ^ k <
        value nbase digits2 * nbase ^ (digits1.length + k + 1 - digits2.length) := by
      calc value nbase digits1 * nbase ^ k < nbase ^ digits1.length * nbase ^ k :=
        mul_lt_mul_of_pos_right (h1.value_lt nbase_pos) (pow_pos nbase_pos _)
        _ = nbase ^ (digits2.length - 1) * nbase ^ (digits1.length + k + 1 - digits2.length) := by
          rw [← pow_add, ← pow_add]
          congr 1
          omega
        _ ≤ value nbase digits2 * nbase ^ (digits1.length + k + 1 - digits2.length) :=
          mul_le_mul_of_nonneg_right hle (pow_pos nbase_pos _).le
    calc value nbase digits1 * nbase ^ k * d < value nbase digits2 *
      nbase ^ (digits1.length + k + 1 - digits2.length) * d := mul_lt_mul_of_pos_right hlt hd
      _ = value nbase digits2 * d * nbase ^ (digits1.length + k + 1 - digits2.length) := by ring
  have hstart : Divided nbase (value nbase divisor') dividend' (0 + digits2.length) []
      (value nbase (dividend'.take (0 + digits2.length))) := by
    refine ⟨fun d hd => absurd hd not_mem_nil, ⟨htake.nonneg nbase_pos.le, hrange⟩, by simp⟩
  obtain ⟨out, rest, hout, hdivided, houtlen⟩ := longDivision_spec hdivisor hscaled.digits rfl rfl
    (show 0 + rounds + digits2.length ≤ dividend'.length by omega) hstart
  refine ⟨out, hout, hdivided.digits, by simpa using houtlen, ?_⟩
  rw [hdivided.quotient_eq, hscaled.digits.value_take nbase_pos, hlength', hvalue1, hvalue2,
    ediv_ediv_of_nonneg (pow_pos nbase_pos _).le,
    show 0 + rounds + digits2.length = rounds + digits2.length by
      omega, mul_comm (nbase ^ _) (value nbase digits2 * d), mul_right_comm (value nbase digits2) d,
    mul_ediv_mul_of_pos_left _ _ hd]

def quotientLength (var1 var2 : NumericVar) (rscale : ℤ) (round : Bool) : ℤ :=
  max (var1.weight - var2.weight + 1 + (rscale + 3) / 4) 1 + if round then 1 else 0

/-- the sizes and weights `div_var` computes are in range, and its workspace can be allocated -/
structure DivFits (var1 var2 : NumericVar) (rscale : ℤ) (round : Bool) : Prop where
  weight : IsInt (var1.weight - var2.weight)
  fraction : rscale + 3 ≤ intMax
  size :
    (max (quotientLength var1 var2 rscale round + var2.digits.length) var1.digits.length +
      var2.digits.length + 2) * 2 ≤ maxAllocSize
  round : Fits (var1.weight - var2.weight) rscale

variable {var1 var2 : NumericVar} {out : List ℤ}

theorem toRat_div (h1 : var1.Valid) (h2 : var2.Valid) :
    var1.toRat / var2.toRat = if var1.sign = var2.sign then var1.magnitude / var2.magnitude
      else -(var1.magnitude / var2.magnitude) := by
  rw [toRat, toRat]
  have hn1 := h1.number
  have hn2 := h2.number
  rcases hs1 : var1.sign with _ | _ | _ <;> rcases hs2 : var2.sign
    with _ | _ | _ <;> simp_all [neg_div, div_neg]

variable {k r : ℕ} (hpos : 0 < value nbase var2.digits) (hlength : out.length = rounds)
  (hr : r + rounds + var2.digits.length = var1.digits.length + k + 1)
  (hvalue : value nbase out = value nbase var1.digits * nbase ^ k /
    (value nbase var2.digits * nbase ^ r))
include hpos hlength hr hvalue

theorem magnitude_quotient :
    magnitudeOf out (var1.weight - var2.weight) =
      (⌊var1.magnitude / var2.magnitude *
        10000 ^ ((rounds : ℤ) - 1 - (var1.weight - var2.weight))⌋ : ℚ) *
        10000 ^ (var1.weight - var2.weight + 1 - (rounds : ℤ)) := by
  have hquot :
    var1.magnitude / var2.magnitude * 10000 ^ ((rounds : ℤ) - 1 - (var1.weight - var2.weight)) =
      ((value nbase var1.digits * nbase ^ k : ℤ) : ℚ) /
        ((value nbase var2.digits * nbase ^ r : ℤ) : ℚ) := by
    have hpow : (10000 : ℚ) ^ (var1.weight + 1 - (var1.digits.length : ℤ)) *
      10000 ^ ((rounds : ℤ) - 1 - (var1.weight - var2.weight)) * 10000 ^ r =
        10000 ^ (var2.weight + 1 - (var2.digits.length : ℤ)) * 10000 ^ k := by
      rw [← zpow_natCast, ← zpow_natCast, ← zpow_add₀ (by norm_num), ← zpow_add₀ (by norm_num),
        ← zpow_add₀ (by norm_num)]
      congr 1
      omega
    rw [magnitude, magnitude, magnitudeOf, magnitudeOf]
    push_cast
    rw [nbase_cast, div_mul_eq_mul_div, div_eq_div_iff (by positivity) (by positivity)]
    linear_combination (value nbase var1.digits : ℚ) * value nbase var2.digits * hpow
  rw [magnitudeOf, hlength, hvalue, hquot, floor_div (mul_pos hpos (pow_pos nbase_pos _))]

theorem unrounded_toRat (h1 : var1.Valid) (h2 : var2.Valid) :
    toRat ⟨[some 0], out, var1.weight - var2.weight, if var1.sign = var2.sign then .pos else .neg, 0⟩ =
      truncAt (4 * ((rounds : ℤ) - 1 - (var1.weight - var2.weight))) (var1.toRat / var2.toRat) := by
  have htrunc : magnitudeOf out (var1.weight - var2.weight) = truncAt
      (4 * ((rounds : ℤ) - 1 - (var1.weight - var2.weight))) (var1.magnitude / var2.magnitude) := by
    have hexp : (10000 : ℚ) ^ (var1.weight - var2.weight + 1 - (rounds : ℤ)) =
        (10000 ^ ((rounds : ℤ) - 1 - (var1.weight - var2.weight)))⁻¹ := by
      rw [← zpow_neg]
      congr 1
      ring
    rw [truncAt_of_nonneg _ (div_nonneg h1.magnitude_nonneg h2.magnitude_nonneg),
      magnitude_quotient hpos hlength hr hvalue, ← pow_ten_four, hexp, ← div_eq_mul_inv]
  rw [toRat_div h1 h2, toRat]
  dsimp only [magnitude] at htrunc ⊢
  by_cases hsign : var1.sign = var2.sign
  · rw [if_pos hsign, if_pos hsign, if_neg (by simp), htrunc]
  · rw [if_neg hsign, if_neg hsign, if_pos rfl, htrunc, truncAt_neg]

omit hpos hlength hr hvalue

theorem divVar_spec {rscale : ℤ} (h1 : var1.Normalised) (h2 : var2.Normalised) (hne : var2.digits ≠ [])
    (hrscale : 0 ≤ rscale) (round : Bool) (hfits : DivFits var1 var2 rscale round) :
    ∃ result, divVar var1 var2 rscale round = .ok result ∧
      IsNumber (if round then roundAt rscale (var1.toRat / var2.toRat)
        else truncAt rscale (var1.toRat / var2.toRat)) rscale result := by
  have hnozero : ¬ (var2.digits = [] ∨ var2.digits.head? = some 0) := not_or.2 ⟨hne, h2.head⟩
  rw [divVar, if_neg hnozero]
  split
  next hzero =>
    rw [ndigits] at hzero
    have hnil : var1.digits = [] := eq_nil_of_length_eq_zero (by exact_mod_cast hzero)
    have hrat : var1.toRat = 0 := by simp [toRat, magnitude, hnil, magnitudeOf_nil]
    have hround : (if round then roundAt rscale 0 else truncAt rscale 0) = (0 : ℚ) := by
      cases round
      · simp [truncAt, away]
      · simp [roundAt, away, halfUp_zero]
    rw [hrat, zero_div, hround]
    exact ⟨_, rfl, isNumber_zero rscale⟩
  rename_i hnonzero
  obtain ⟨hweight, hfraction, hsize, hround⟩ := hfits
  have hN : 1 ≤ quotientLength var1 var2 rscale round := by
    unfold quotientLength
    split <;> omega
  obtain ⟨rounds, hrounds⟩ :=
    eq_ofNat_of_zero_le (show 0 ≤ quotientLength var1 var2 rscale round by omega)
  have hdef : max (var1.weight - var2.weight + 1 + (rscale + 3) / 4) 1 + (if round then 1 else 0) =
    (rounds : ℤ) := hrounds
  generalize hrw : var1.weight - var2.weight = resWeight at *
  have hbig : maxAllocSize = 1073741823 := rfl
  have hint : intMax = 2147483647 := rfl
  have hplaces := hround.places
  unfold IsInt at hplaces
  have hif : (if round = true then max (resWeight + 1 + (rscale + 3) / 4) 1 + 1
      else max (resWeight + 1 + (rscale + 3) / 4) 1) = (rounds : ℤ) := by
    rw [← hdef]
    split <;> ring
  simp only [ndigits]
  rw [int_ok hweight, ok_bind, decDigits, show rscale + 4 - 1 =
    rscale + 3 by ring, int_ok ⟨by omega, hfraction⟩, ok_bind, int_ok ⟨by omega, by omega⟩, ok_bind,
    tdiv_eq_ediv_of_nonneg (show 0 ≤ rscale + 3 by omega), int_ok ⟨by omega, by omega⟩, ok_bind, hif,
    int_ok ⟨by omega, by omega⟩, ok_bind,
    int_ok ⟨by omega, by omega⟩, ok_bind, int_ok ⟨by omega, by omega⟩, ok_bind,
    int_ok ⟨by omega, by omega⟩, ok_bind, alloc_ok (by omega), digitbufAlloc,
    alloc_ok (by omega), toNat_natCast]
  obtain ⟨k, hk⟩ := eq_ofNat_of_zero_le
    (show 0 ≤ max ((rounds : ℤ) + var2.digits.length) var1.digits.length - var1.digits.length by omega)
  rw [hk, toNat_natCast]
  obtain ⟨out, hout, hdigits, houtlen, hvalue⟩ := quotientDigits_spec h1.digits h2.digits hne h2.head
    (show rounds + var2.digits.length ≤ var1.digits.length + k by omega)
  rw [hout]
  have hrat := unrounded_toRat (h2.value_pos hne) houtlen (by omega) hvalue h1.toValid h2.toValid
  rw [hrw] at hrat
  have hvalid : NumericVar.Valid ⟨[some 0], out, resWeight, if var1.sign = var2.sign then .pos
      else .neg, 0⟩ := by
    refine ⟨hdigits, ?_⟩
    split <;> simp
  cases round with
  | true =>
    obtain ⟨e, he⟩ : ∃ e : ℕ, 4 * ((rounds : ℤ) - 1 - resWeight) = rscale + (e + 1 : ℕ) :=
      ⟨(4 * ((rounds : ℤ) - 1 - resWeight) - rscale - 1).toNat, by simp only [if_true] at hdef; omega⟩
    have hspec := roundVar_stripVar_spec hvalid rfl hround
    rw [hrat, he, roundAt_truncAt] at hspec
    exact hspec
  | false => ?_
  obtain ⟨e, he⟩ : ∃ e : ℕ, 4 * ((rounds : ℤ) - 1 - resWeight) = rscale + (e : ℕ) :=
    ⟨(4 * ((rounds : ℤ) - 1 - resWeight) - rscale).toNat, by omega⟩
  have hspec := truncVar_stripVar_spec hvalid hround
  rw [hrat, he, truncAt_truncAt] at hspec
  exact hspec

/-- The quotient, rounded half away from zero or truncated at `rscale`; no access leaves the workspace
and all assertions hold. -/
theorem divVar_exact {var1 var2 : NumericVar} {rscale : ℤ} (h1 : var1.Normalised) (h2 : var2.Normalised)
    (hne : var2.digits ≠ []) (hrscale : 0 ≤ rscale) (round : Bool)
    (hfits : DivFits var1 var2 rscale round) :
    ∃ result, divVar var1 var2 rscale round = .ok result ∧
      IsNumber (if round then roundAt rscale (var1.toRat / var2.toRat)
        else truncAt rscale (var1.toRat / var2.toRat)) rscale result :=
  divVar_spec h1 h2 hne hrscale round hfits

def numericOne : NumericVar := ⟨[], [1], 0, .pos, 0⟩

/-- The divisor -3.5 has two digits, so the quotient comes from the long division. -/
def minusThreeAndHalf : NumericVar := ⟨[], [3, 5000], 0, .neg, 1⟩

/-- 1 / -3.5, with ten digits after the decimal point -/
theorem divVar_exact_twoDigits : ∃ result, divVar numericOne minusThreeAndHalf 10 true = .ok result ∧
    result.digits = [2857, 1428, 5700] ∧ result.weight = -1 ∧ result.sign = .neg ∧
      IsNumber (roundAt 10 (numericOne.toRat / minusThreeAndHalf.toRat)) 10 result := by
  have h1 : numericOne.Normalised := by decide
  have h2 : minusThreeAndHalf.Normalised := by decide
  obtain ⟨result, hrun, hnumber⟩ := divVar_exact h1 h2 (by decide) (by decide : (0 : ℤ) ≤ 10) true
    ⟨by decide, by decide, by decide, ⟨by decide, by decide, by decide⟩⟩
  have hdigits : divVar numericOne minusThreeAndHalf 10 true =
      .ok ⟨[some 0, some 0], [2857, 1428, 5700], -1, .neg, 10⟩ := by
    decide +kernel
  cases hdigits.symm.trans hrun
  exact ⟨_, hrun, rfl, rfl, rfl, hnumber⟩

/-- 1 / 1 with 2147483644 digits after the decimal point needs too large a workspace. -/
theorem divVar_too_many_digits :
    NumericVar.Normalised ⟨[], [1], 0, .pos, 0⟩ ∧
      divVar ⟨[], [1], 0, .pos, 0⟩ ⟨[], [1], 0, .pos, 0⟩ 2147483644 true =
        .error (.backend (.allocSize 1073741834)) :=
  ⟨by decide, by decide +kernel⟩

end Pg.Numeric
