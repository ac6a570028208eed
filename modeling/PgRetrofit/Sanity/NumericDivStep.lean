import PgRetrofit.Lib.LongDivision
import PgRetrofit.Sanity.NumericRound

/-! One quotient digit of `div_var`: the estimate, its correction, and the subtraction of the multiple of
the divisor from a window of the dividend. -/

namespace Pg.Numeric

open Positional LongDivision List Result Int

variable {divisor dividend : List ℤ} {divisor1 divisor2 qhat : ℤ} {n j : ℕ}

/-- a divisor of `n` digits after a leading zero, at least two -/
structure IsDivisor (divisor : List ℤ) (divisor1 divisor2 : ℤ) (n : ℕ) : Prop where
  shape : ∃ rest, divisor = 0 :: divisor1 :: divisor2 :: rest ∧ rest.length + 2 = n
  digits : Digits nbase divisor
  pos : 1 ≤ divisor1

variable (h : IsDivisor divisor divisor1 divisor2 n)
include h

theorem IsDivisor.length : divisor.length = n + 1 := by
  obtain ⟨rest, rfl, hn⟩ := h.shape
  simp only [length_cons]
  omega

theorem IsDivisor.two_le : 2 ≤ n := by
  obtain ⟨rest, -, hn⟩ := h.shape
  omega

theorem IsDivisor.first : divisor1 < nbase := by
  obtain ⟨rest, hshape, -⟩ := h.shape
  exact (h.digits divisor1 (by rw [hshape]; simp)).2

theorem IsDivisor.second : 0 ≤ divisor2 ∧ divisor2 < nbase := by
  obtain ⟨rest, hshape, -⟩ := h.shape
  exact h.digits divisor2 (by rw [hshape]; simp)

theorem IsDivisor.split :
    ∃ r, value nbase divisor = (divisor1 * nbase + divisor2) * nbase ^ (n - 2) + r ∧
    0 ≤ r ∧ r < nbase ^ (n - 2) := by
  obtain ⟨rest, hshape, hn⟩ := h.shape
  have hrest : Digits nbase rest := h.digits.mono (by rw [hshape]; intro d hd; simp [hd])
  have hlen : rest.length = n - 2 := by omega
  have hlt := hrest.value_lt nbase_pos
  rw [hlen] at hlt
  refine ⟨value nbase rest, ?_, hrest.nonneg nbase_pos.le, hlt⟩
  simp only [hshape, value_cons, length_cons, hlen, pow_succ]
  ring

theorem IsDivisor.le_value : nbase * nbase ^ (n - 2) ≤ value nbase divisor := by
  obtain ⟨r, hvalue, hr, -⟩ := h.split
  have hpow : 0 < nbase ^ (n - 2) := pow_pos nbase_pos _
  have hlead : nbase ≤ divisor1 * nbase + divisor2 := by
    have := h.second.1
    have : nbase ≤ divisor1 * nbase := le_mul_of_one_le_left nbase_pos.le h.pos
    omega
  nlinarith

theorem IsDivisor.value_lt : value nbase divisor < nbase ^ n := by
  obtain ⟨rest, hshape, hn⟩ := h.shape
  have hdigits : Digits nbase (divisor1 :: divisor2 :: rest) :=
    h.digits.mono (by rw [hshape]; exact subset_cons_self _ _)
  have hlt := hdigits.value_lt nbase_pos
  rw [hshape, value_cons, zero_mul]
  simpa [← hn] using hlt

omit h

theorem value_before_window (hdivisor : IsDivisor divisor divisor1 divisor2 n)
    (hdigits : Digits nbase dividend) (hlen : j + n < dividend.length)
    (hrest : value nbase (dividend.take (j + n)) < value nbase divisor) :
    value nbase (dividend.take j) = 0 := by
  have htake : Digits nbase (dividend.take (j + n)) := hdigits.mono (take_subset _ _)
  have hleading := htake.value_take nbase_pos j
  rw [take_take, min_eq_left (by omega), length_take, min_eq_left (by omega),
    show j + n - j = n by omega] at hleading
  rw [hleading, ediv_eq_zero_of_lt (htake.nonneg nbase_pos.le) (hrest.trans hdivisor.value_lt)]

theorem value_window (hbefore : value nbase (dividend.take j) = 0) (k : ℕ) :
    value nbase (dividend.take (j + k)) = value nbase ((dividend.drop j).take k) := by
  rw [take_add, value_append, hbefore, zero_mul, zero_add]

theorem upTo_window (k : ℕ) (hlen : j + k ≤ dividend.length) :
    upTo nbase (fun i => dividend.getD (j + i) 0) k = value nbase ((dividend.drop j).take k) := by
  rw [← upTo_getD_take (dividend.drop j) (by rw [length_drop]; omega)]
  refine upTo_congr fun i _ => ?_
  rw [getD_eq_getElem?_getD, getD_eq_getElem?_getD, getElem?_drop]

theorem replaceWindow_spec {window : List ℤ} (hdigits : Digits nbase dividend)
    (hwindow : Digits nbase window) (hwlen : window.length = n + 1) (hlen : j + n < dividend.length)
    (hbefore : value nbase (dividend.take j) = 0) :
    Digits nbase (replaceWindow dividend window j) ∧
      (replaceWindow dividend window j).length = dividend.length ∧ (replaceWindow dividend window j).drop
      (j + (n + 1)) = dividend.drop (j + (n + 1)) ∧
      value nbase ((replaceWindow dividend window j).take (j + (n + 1))) = value nbase window ∧
      value nbase ((replaceWindow dividend window j).take j) = 0 := by
  have hj : (dividend.take j).length = j := by
    rw [length_take]
    omega
  have hfront : (dividend.take j ++ window).length = j + (n + 1) := by rw [length_append, hj, hwlen]
  rw [replaceWindow, hwlen]
  refine ⟨?_, ?_, ?_, ?_, ?_⟩
  · exact ((hdigits.mono (take_subset _ _)).append hwindow).append (hdigits.mono (drop_subset _ _))
  · rw [length_append, length_drop]
    omega
  · rw [drop_left' hfront]
  · rw [take_left' hfront, value_append, hbefore, zero_mul, zero_add]
  · rw [append_assoc, take_left' hj, hbefore]

/-- The loop leaves the greatest estimate that does not exceed the leading digits. -/
theorem adjustQhat_spec {next2digits next : ℤ} (hfirst : 1 ≤ divisor1 ∧ divisor1 < nbase)
    (hsecond : 0 ≤ divisor2 ∧ divisor2 < nbase) (hnext : 0 ≤ next ∧ next < nbase) {fuel : ℕ}
    (hqhat : 0 ≤ qhat ∧ qhat < nbase) (hfuel : qhat < fuel)
    (hrest : 0 ≤ next2digits - qhat * divisor1 ∧ next2digits - qhat * divisor1 < 2 * nbase) :
    ∃ q, adjustQhat divisor1 divisor2 next2digits next fuel qhat = .ok q ∧ 0 ≤ q ∧ q ≤ qhat ∧
      q * (divisor1 * nbase + divisor2) ≤ next2digits * nbase + next ∧
      (q = qhat ∨ next2digits * nbase + next < (q + 1) * (divisor1 * nbase + divisor2)) := by
  induction fuel generalizing qhat with
  | zero => omega
  | succ fuel ih => ?_
  have hleft : 0 ≤ divisor2 * qhat ∧ divisor2 * qhat ≤ 9999 * 9999 := by
    refine ⟨mul_nonneg hsecond.1 hqhat.1, ?_⟩
    unfold nbase at *
    exact mul_le_mul (by omega) (by omega) hqhat.1 (by omega)
  generalize hR : next2digits - qhat * divisor1 = rest at *
  have hint : IsInt (divisor2 * qhat) ∧ IsInt rest ∧ IsInt (rest * nbase + next) := by
    unfold IsInt intMax nbase at *
    omega
  rw [adjustQhat, int_ok hint.1, ok_bind, hR, int_ok hint.2.1, ok_bind, int_ok hint.2.2, ok_bind]
  have hsplit : next2digits * nbase + next = qhat * divisor1 * nbase + (rest * nbase + next) := by
    rw [← hR]
    ring
  split
  next htoo =>
    have hpos : 0 < qhat := by
      by_contra hzero
      obtain rfl : qhat = 0 := by omega
      unfold nbase at *
      omega
    have hrest' : 0 ≤ next2digits - (qhat - 1) * divisor1 ∧
        next2digits - (qhat - 1) * divisor1 < 2 * nbase := by
      have hnew : next2digits - (qhat - 1) * divisor1 = rest + divisor1 := by rw [← hR]; ring
      unfold nbase at *
      omega
    obtain ⟨q, hq, hq0, hqle, hle, hgreatest⟩ := ih ⟨by omega, by omega⟩ (by omega) hrest'
    refine ⟨q, hq, hq0, by omega, hle, .inr ?_⟩
    rcases hgreatest with rfl | hlt
    · linarith
    · exact hlt
  next hfits =>
    refine ⟨qhat, rfl, hqhat.1, le_rfl, ?_, .inl rfl⟩
    linarith

/-- The first estimate from the first two digits, `digit0` being at most the first digit of the
divisor. -/
theorem firstQhat_spec {digit0 digit1 : ℤ} (hfirst : 1 ≤ divisor1)
    (hdigit0 : 0 ≤ digit0 ∧ digit0 ≤ divisor1) (hbound : divisor1 < nbase)
    (hdigit1 : 0 ≤ digit1 ∧ digit1 < nbase)
    (hqhat : qhat = if digit0 = divisor1 then nbase - 1 else (digit0 * nbase + digit1) / divisor1) :
    (0 ≤ qhat ∧ qhat < nbase) ∧ (0 ≤ digit0 * nbase + digit1 - qhat * divisor1 ∧
      digit0 * nbase + digit1 - qhat * divisor1 < 2 * nbase) ∧
      (qhat + 1 = nbase ∨ digit0 * nbase + digit1 < (qhat + 1) * divisor1) := by
  split at hqhat
  next heq =>
    subst hqhat heq
    have hrest : digit0 * nbase + digit1 - (nbase - 1) * digit0 = digit0 + digit1 := by ring
    exact ⟨⟨by decide, by decide⟩, ⟨by omega, by omega⟩, .inl (by ring)⟩
  rename_i hne
  have hnonneg : 0 ≤ digit0 * nbase + digit1 := add_nonneg (mul_nonneg hdigit0.1 nbase_pos.le) hdigit1.1
  have hdiv := mul_ediv_add_emod (digit0 * nbase + digit1) divisor1
  have hmod0 := emod_nonneg (digit0 * nbase + digit1) (show divisor1 ≠ 0 by omega)
  have hmod1 := emod_lt_of_pos (digit0 * nbase + digit1) (show 0 < divisor1 by omega)
  rw [← hqhat] at hdiv
  have hrest : digit0 * nbase + digit1 - qhat * divisor1 = (digit0 * nbase + digit1) % divisor1 := by
    linear_combination -hdiv
  have hlt : qhat < nbase := by
    have : digit0 + 1 ≤ divisor1 := by omega
    nlinarith [nbase_pos]
  rw [hrest]
  refine ⟨⟨by rw [hqhat]; exact ediv_nonneg hnonneg (by omega), hlt⟩, ⟨hmod0, by omega⟩, .inr ?_⟩
  linarith

variable (hdivisor : IsDivisor divisor divisor1 divisor2 n)
include hdivisor

theorem upTo_divisor : upTo nbase (fun i => divisor.getD i 0) (n + 1) = value nbase divisor := by
  rw [← hdivisor.length, upTo_getD]

variable (hdigits : Digits nbase dividend) (hlen : j + n < dividend.length)
include hdigits hlen

theorem mulSubStep_carries (hqhat : 0 ≤ qhat ∧ qhat < nbase) :
    Carries nbase (mulSubStep dividend divisor j qhat) (fun state => state.2 - state.1)
      (fun i => dividend.getD (j + i) 0 - divisor.getD i 0 * qhat)
      (fun i state => 0 ≤ state.1 ∧ state.1 ≤ qhat ∧ (i = 0 → state.1 = 0) ∧ -1 ≤ state.2 ∧ state.2 ≤ 0)
      (n + 1) := by
  refine ⟨fun i hi state hstate => ?_⟩
  obtain ⟨carry, borrow⟩ := state
  have hi1 : i < divisor.length := by rw [hdivisor.length]; exact hi
  have hi2 : j + i < dividend.length := by omega
  obtain ⟨hlow1, hhigh1⟩ := hdivisor.digits _ (getElem_mem hi1)
  obtain ⟨hlow2, hhigh2⟩ := hdigits _ (getElem_mem hi2)
  have hprod0 : 0 ≤ divisor[i] * qhat := mul_nonneg hlow1 hqhat.1
  have hprod1 : divisor[i] * qhat ≤ (nbase - 1) * qhat := mul_le_mul_of_nonneg_right (by omega) hqhat.1
  have hsum : 0 ≤ carry + divisor[i] * qhat ∧ carry + divisor[i] * qhat ≤ nbase * qhat :=
    ⟨by omega, by linarith⟩
  have hint : IsInt (carry + divisor[i] * qhat) := by
    unfold IsInt intMax nbase at *
    omega
  have hfirst : i = 0 → divisor[i] = 0 := by
    rintro rfl
    obtain ⟨rest, hshape, -⟩ := hdivisor.shape
    simp [hshape]
  rw [mulSubStep, read_ok hi1, ok_bind, int_ok hint, ok_bind, read_ok hi2, ok_bind]
  simp only [getD_eq_getElem _ _ hi1, getD_eq_getElem _ _ hi2]
  generalize hx : divisor[i] * qhat = x at *
  have hdiv := mul_ediv_add_emod (carry + x) nbase
  have hmod0 := emod_nonneg (carry + x) nbase_pos.ne'
  have hmod1 := emod_lt_of_pos (carry + x) nbase_pos
  have hquot0 : 0 ≤ (carry + x) / nbase := ediv_nonneg hsum.1 nbase_pos.le
  have hquot1 : (carry + x) / nbase ≤ qhat := by
    rw [← mul_ediv_cancel_left qhat nbase_pos.ne']
    exact Int.ediv_le_ediv nbase_pos hsum.2
  have hquot2 : i = 0 → (carry + x) / nbase = 0 := fun hzero => by
    have hx0 : x = 0 := by rw [← hx, hfirst hzero, zero_mul]
    exact ediv_eq_zero_of_lt (by omega) (by omega)
  split
  all_goals exact ⟨_, _, rfl, ⟨hquot0, hquot1, hquot2, by simp, by simp⟩,
    by omega, by omega, by linear_combination -hdiv⟩

theorem addBackStep_carries :
    Carries nbase (addBackStep dividend divisor j) id
      (fun i => dividend.getD (j + i) 0 + divisor.getD i 0)
      (fun _ carry => 0 ≤ carry ∧ carry ≤ 1) (n + 1) := by
  refine ⟨fun i hi carry hcarry => ?_⟩
  have hi1 : i < divisor.length := by rw [hdivisor.length]; exact hi
  have hi2 : j + i < dividend.length := by omega
  obtain ⟨hlow1, hhigh1⟩ := hdivisor.digits _ (getElem_mem hi1)
  obtain ⟨hlow2, hhigh2⟩ := hdigits _ (getElem_mem hi2)
  rw [addBackStep, read_ok hi2, ok_bind, read_ok hi1, ok_bind]
  simp only [getD_eq_getElem _ _ hi1, getD_eq_getElem _ _ hi2, id]
  split
  all_goals exact ⟨_, _, rfl, ⟨by decide, by decide⟩, by omega, by omega, by ring⟩

/-- The quotient digit, and the dividend with the remainder in place of the window. -/
structure DigitFound (divisor dividend : List ℤ) (n j : ℕ) (digit : ℤ) (dividend' : List ℤ) : Prop where
  quotient : 0 ≤ digit ∧ digit < nbase
  digits : Digits nbase dividend'
  length : dividend'.length = dividend.length
  rest : dividend'.drop (j + (n + 1)) = dividend.drop (j + (n + 1))
  range : value nbase (dividend'.take (j + (n + 1))) < value nbase divisor
  division : value nbase (dividend.take (j + (n + 1))) = digit * value nbase divisor + value nbase
    (dividend'.take (j + (n + 1)))

/-- The estimate is subtracted, and corrected if it was one too large. -/
theorem subtractMultiple_spec (hbefore : value nbase (dividend.take j) = 0)
    (hqhat : 0 < qhat ∧ qhat < nbase)
    (hbounds : (qhat - 1) * value nbase divisor ≤ value nbase (dividend.take (j + (n + 1))) ∧
      value nbase (dividend.take (j + (n + 1))) < (qhat + 1) * value nbase divisor) :
    ∃ digit dividend', subtractMultiple divisor n j dividend qhat = .ok (digit, dividend') ∧
      DigitFound divisor dividend n j digit dividend' := by
  have hstart : 0 ≤ ((0, 0) : ℤ × ℤ).1 ∧ ((0, 0) : ℤ × ℤ).1 ≤ qhat ∧
      (n + 1 = 0 → ((0, 0) : ℤ × ℤ).1 = 0) ∧ -1 ≤ ((0, 0) : ℤ × ℤ).2 ∧ ((0, 0) : ℤ × ℤ).2 ≤ 0 :=
    ⟨le_rfl, hqhat.1.le, fun _ => rfl, by decide, le_rfl⟩
  obtain ⟨window, ⟨carry, borrow⟩, hrun, ⟨-, -, hcarry, hborrow0, hborrow1⟩, hwindow, hwlen, hwvalue⟩ :=
    (mulSubStep_carries hdivisor hdigits hlen ⟨hqhat.1.le, hqhat.2⟩).run hstart
  obtain rfl : carry = 0 := hcarry rfl
  rw [upTo_sub, upTo_mul, upTo_window (n + 1) (by omega), upTo_divisor hdivisor, ← value_window hbefore]
    at hwvalue
  simp only [sub_zero, add_zero] at hwvalue
  obtain ⟨hdigits', hlength', hdrop', hvalue', hbefore'⟩ :=
    replaceWindow_spec hdigits hwindow hwlen hlen hbefore
  have hlen' : j + n < (replaceWindow dividend window j).length := by rwa [hlength']
  have hwnonneg := hwindow.nonneg nbase_pos.le
  have hwlt := hwindow.value_lt nbase_pos
  rw [hwlen] at hwlt
  rw [subtractMultiple, hrun, ok_bind]
  dsimp only
  by_cases hzero : borrow = 0
  · subst hzero
    rw [mul_zero, add_zero] at hwvalue
    refine ⟨qhat, _, rfl, ⟨⟨hqhat.1.le, hqhat.2⟩, hdigits', hlength', hdrop', ?_, ?_⟩⟩
    · linarith [hbounds.2]
    · rw [hvalue', hwvalue]
      ring
  -- the estimate was one too large
  obtain rfl : borrow = -1 := by omega
  have hone : (0 : ℤ) ≤ 0 ∧ (0 : ℤ) ≤ 1 := ⟨le_rfl, by decide⟩
  obtain ⟨window', carry', hrun', ⟨hcarry0, hcarry1⟩, hwindow', hwlen', hwvalue'⟩ :=
    (addBackStep_carries hdivisor hdigits' hlen').run hone
  rw [upTo_add, upTo_window (n + 1) (by omega), upTo_divisor hdivisor, ← value_window hbefore', hvalue']
    at hwvalue'
  simp only [id, add_zero] at hwvalue'
  have hwlt' := hwindow'.value_lt nbase_pos
  rw [hwlen'] at hwlt'
  obtain rfl : carry' = 1 := by
    by_contra hne
    obtain rfl : carry' = 0 := by omega
    nlinarith [hbounds.1]
  rw [hrun']
  obtain ⟨hdigits'', hlength'', hdrop'', hvalue'', -⟩ :=
    replaceWindow_spec hdigits' hwindow' hwlen' hlen' hbefore'
  have hfinal : value nbase window' = value nbase (dividend.take (j + (n + 1))) - (qhat - 1) *
      value nbase divisor := by
    linear_combination hwvalue' + hwvalue
  refine ⟨_, _, rfl,
    ⟨⟨by omega, by omega⟩, hdigits'', hlength''.trans hlength', hdrop''.trans hdrop', ?_, ?_⟩⟩
  · linarith [hwnonneg, hwlt]
  · rw [hvalue'', hfinal]
    ring

theorem divStep_spec (hrest : value nbase (dividend.take (j + n)) < value nbase divisor) :
    ∃ digit dividend', divStep divisor divisor1 divisor2 n j dividend = .ok (digit, dividend') ∧
      DigitFound divisor dividend n j digit dividend' := by
  have hn := hdivisor.two_le
  have hbefore := value_before_window hdivisor hdigits hlen hrest
  have hj0 : j < dividend.length := by omega
  have hj1 : j + 1 < dividend.length := by omega
  have hj2 : j + 2 < dividend.length := by omega
  obtain ⟨hlow0, hhigh0⟩ := hdigits _ (getElem_mem hj0)
  obtain ⟨hlow1, hhigh1⟩ := hdigits _ (getElem_mem hj1)
  obtain ⟨hlow2, hhigh2⟩ := hdigits _ (getElem_mem hj2)
  have hint : IsInt (dividend[j] * nbase + dividend[j + 1]) := by
    unfold IsInt intMax nbase at *
    omega
  -- the leading digits of the window
  have htake : Digits nbase (dividend.take (j + (n + 1))) := hdigits.mono (take_subset _ _)
  have hlead : (dividend[j] * nbase + dividend[j + 1]) * nbase + dividend[j + 2] =
      value nbase (dividend.take (j + (n + 1))) / nbase ^ (n - 2) := by
    have hdiv := htake.value_take nbase_pos (j + 3)
    rw [take_take, min_eq_left (by omega), length_take, min_eq_left (by omega),
      show j + (n + 1) - (j + 3) = n - 2 by omega] at hdiv
    rw [← hdiv, value_take_succ hj2, value_take_succ hj1, value_take_succ hj0, hbefore]
    ring
  have hpow : 0 < nbase ^ (n - 2) := pow_pos nbase_pos _
  have hwindow : value nbase (dividend.take (j + (n + 1))) < value nbase divisor * nbase := by
    rw [← Nat.add_assoc, value_take_succ (show j + n < dividend.length by omega)]
    obtain ⟨-, hhigh⟩ := hdigits _ (getElem_mem hlen)
    nlinarith [nbase_pos]
  generalize hu : value nbase (dividend.take (j + (n + 1))) = u at *
  generalize hs : (dividend[j] * nbase + dividend[j + 1]) * nbase + dividend[j + 2] = s at *
  have hsu : s * nbase ^ (n - 2) ≤ u ∧ u < (s + 1) * nbase ^ (n - 2) := by
    rw [hlead]
    exact ⟨Int.ediv_mul_le u hpow.ne', Int.lt_ediv_add_one_mul_self u hpow⟩
  obtain ⟨r, hsplit, hr0, hr1⟩ := hdivisor.split
  have hfirst := hdivisor.first
  have hpos := hdivisor.pos
  obtain ⟨hsecond0, hsecond1⟩ := hdivisor.second
  rw [divStep, read_ok hj0, ok_bind, read_ok hj1, ok_bind, int_ok hint, ok_bind]
  split
  next hzero =>
    refine ⟨0, dividend, rfl, ⟨⟨le_rfl, nbase_pos⟩, hdigits, rfl, rfl, ?_, by ring⟩⟩
    have hle := hdivisor.le_value
    have hs1 : s + 1 ≤ nbase := by
      rw [← hs, hzero]
      omega
    have : (s + 1) * nbase ^ (n - 2) ≤ nbase * nbase ^ (n - 2) := mul_le_mul_of_nonneg_right hs1 hpow.le
    linarith [hsu.2]
  rename_i hne
  have hdigit0 : dividend[j] ≤ divisor1 := by
    by_contra hlt
    -- then the window is at least the divisor shifted by a digit
    have hs2 : (divisor1 * nbase + divisor2 + 1) * nbase ≤ s := by
      unfold nbase at *
      omega
    have hbig :
        value nbase divisor * nbase ≤ (divisor1 * nbase + divisor2 + 1) * nbase * nbase ^ (n - 2) := by
      nlinarith [nbase_pos]
    have : (divisor1 * nbase + divisor2 + 1) * nbase * nbase ^ (n - 2) ≤ s * nbase ^ (n - 2) :=
      mul_le_mul_of_nonneg_right hs2 hpow.le
    linarith [hsu.1]
  obtain ⟨hqhat, hrestq, hgreatest⟩ := firstQhat_spec hpos ⟨hlow0, hdigit0⟩ hfirst ⟨hlow1, hhigh1⟩ rfl
  generalize (if dividend[j] = divisor1 then nbase - 1
    else (dividend[j] * nbase + dividend[j + 1]) / divisor1) = qhat at *
  rw [read_ok hj2, ok_bind]
  obtain ⟨q, hq, hq0, hqle, hle, hqgreatest⟩ :=
    adjustQhat_spec ⟨hpos, hfirst⟩ ⟨hsecond0, hsecond1⟩ ⟨hlow2, hhigh2⟩ hqhat
      (show qhat < (qhat.toNat + 1 : ℕ) by omega) hrestq
  rw [hq, ok_bind]
  rw [hs] at hle hqgreatest
  have hestimate : Estimate nbase (divisor1 * nbase + divisor2) s q := by
    refine ⟨hq0, by omega, hle, ?_⟩
    rcases hqgreatest with rfl | hlt
    · refine hgreatest.imp_right fun hlt => ?_
      have hnext : (dividend[j] * nbase + dividend[j + 1] + 1) * nbase ≤ (q + 1) * divisor1 * nbase :=
        mul_le_mul_of_nonneg_right hlt nbase_pos.le
      have hrest2 : 0 ≤ (q + 1) * divisor2 := mul_nonneg (by omega) hsecond0
      linarith
    · exact .inr hlt
  have hbounds := hestimate.bounds hsplit ⟨hr0, hr1⟩ hdivisor.le_value hsu hwindow
  split
  next hqpos =>
    exact subtractMultiple_spec hdivisor hdigits hlen hbefore ⟨hqpos, by omega⟩
      (by rw [hu]; exact hbounds)
  next hqzero =>
    obtain rfl : q = 0 := by omega
    refine ⟨0, dividend, rfl, ⟨⟨le_rfl, nbase_pos⟩, hdigits, rfl, rfl, ?_, by ring⟩⟩
    linarith [hbounds.2]

end Pg.Numeric
