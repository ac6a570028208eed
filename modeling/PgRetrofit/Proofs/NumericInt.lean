import PgRetrofit.Sanity.NumericRound

/-! Conversions between `NumericVar` and integers of 64 and 128 bits. -/

namespace Pg.Numeric

open Positional Rounding List Result Int NumericVar

variable {var : NumericVar} {z : ℤ}

def NumericVar.toInteger (var : NumericVar) : ℤ := away halfUp var.toRat

structure IsInteger (var : NumericVar) (z : ℤ) : Prop where
  digits : Digits nbase var.digits
  sign : var.digits ≠ [] → (var.sign = .neg ↔ z < 0)
  zero : var.digits = [] → z = 0
  head : ∀ d ds, var.digits = d :: ds → 1 ≤ d
  weight : var.digits ≠ [] → 0 ≤ var.weight ∧ (var.digits.length : ℤ) ≤ var.weight + 1
  value : var.digits ≠ [] →
    |z| = value nbase var.digits * nbase ^ (var.weight + 1 - var.digits.length).toNat

theorem roundToInteger_spec (hvar : var.Valid) (hsize : (var.digits.length + 1) * 2 ≤ maxAllocSize)
    (hfits : Fits var.weight 0) :
    ∃ rounded, roundToInteger var = .ok rounded ∧ IsInteger rounded var.toInteger := by
  have hcopy : setVarFromVar var = .ok { var with spare := [some 0] } := by
    rw [setVarFromVar, digitbufAlloc, alloc_ok (by rw [ndigits]; omega)]
    rfl
  obtain ⟨rounded, hrounded, hnormal, hrat, -⟩ :
    ∃ rounded, (roundVar { var with spare := [some 0] } 0 >>= fun rounded => pure (stripVar rounded)) =
      .ok rounded ∧ IsNumber (roundAt 0 var.toRat) 0 rounded :=
    roundVar_stripVar_spec ⟨hvar.digits, hvar.number⟩ rfl hfits
  rw [roundAt, zpow_zero, mul_one, div_one, ← toInteger] at hrat
  refine ⟨rounded, by rw [roundToInteger, hcopy, ok_bind, hrounded], ?_⟩
  generalize var.toInteger = z at *
  have habs : rounded.magnitude = ((|z| : ℤ) : ℚ) := by rw [cast_abs, ← hrat, abs_toRat hnormal.digits]
  have hweight : rounded.digits ≠ [] → (rounded.digits.length : ℤ) ≤ rounded.weight + 1 := fun hne => by
    have hle := hnormal.length_le hne (z := |z|) (by rwa [zpow_zero, mul_one])
    omega
  exact
    { digits := hnormal.digits
      sign := fun hne => by
        have hmag := hnormal.magnitude_pos hne
        rw [toRat] at hrat
        split at hrat
        next hneg =>
          refine iff_of_true hneg ?_
          have : (z : ℚ) < 0 := by linarith
          exact_mod_cast this
        next hneg =>
          refine iff_of_false hneg ?_
          have : (0 : ℚ) < z := by linarith
          exact not_lt.2 (by exact_mod_cast this.le)
      zero := fun hnil => by
        rw [magnitude, hnil, magnitudeOf_nil] at habs
        exact abs_eq_zero.1 (by exact_mod_cast habs.symm)
      head := fun d ds heq => by
        have hd := hnormal.digits d (by rw [heq]; exact mem_cons_self)
        have hne : d ≠ 0 := by
          rintro rfl
          exact hnormal.head (by rw [heq]; rfl)
        omega
      weight := fun hne => by
        have hlength := length_pos_iff.2 hne
        exact ⟨by have := hweight hne; omega, hweight hne⟩
      value := fun hne => by
        have hexp : rounded.weight + 1 - (rounded.digits.length : ℤ) =
            ((rounded.weight + 1 - rounded.digits.length).toNat : ℤ) :=
          (toNat_of_nonneg (sub_nonneg.2 (hweight hne))).symm
        rw [magnitude, magnitudeOf, hexp, zpow_natCast] at habs
        exact_mod_cast habs.symm }

/-- what the rounds to go make of `val`, with the digits to go and then zeros -/
def accumulated (n : ℕ) (ds : List ℤ) (val : ℤ) :
    ℤ := val * nbase ^ n + value nbase ds * nbase ^ (n - ds.length)

variable {ds : List ℤ} {val d x : ℤ} {n room : ℕ}

theorem accumulated_zero (hlength : ds.length ≤ 0) : accumulated 0 ds val = val := by
  obtain rfl := eq_nil_of_length_eq_zero (Nat.le_zero.1 hlength)
  simp [accumulated]

theorem accumulated_succ (h : ds.length ≤ n + 1) (val : ℤ) :
    accumulated (n + 1) ds val = accumulated n ds.tail (val * nbase + ds.headD 0) := by
  cases ds with
  | nil =>
    simp only [accumulated, value_nil, pow_succ, headD_nil, tail_nil]
    ring
  | cons d ds =>
    have hpow : nbase ^ ds.length * nbase ^ (n - ds.length) = nbase ^ n := by
      rw [← pow_add, Nat.add_sub_cancel' (by simpa using h)]
    simp only [accumulated, value_cons, length_cons, pow_succ, Nat.add_sub_add_right,
      headD_cons, tail_cons]
    linear_combination d * hpow

theorem headD_digit (h : Digits nbase ds) : 0 ≤ ds.headD 0 ∧ ds.headD 0 < nbase := by
  cases ds with
  | nil => exact ⟨le_rfl, nbase_pos⟩
  | cons d ds => exact h d mem_cons_self

theorem IsInteger.cons (h : IsInteger var z) (heq : var.digits = d :: ds) :
    var.digits ≠ [] ∧ (0 ≤ d ∧ d < nbase) ∧ Digits nbase ds ∧ |z| = accumulated var.weight.toNat ds d ∧
      ds.length ≤ var.weight.toNat := by
  have hne : var.digits ≠ [] := by simp [heq]
  obtain ⟨hd, hds⟩ := forall_mem_cons.1 (heq ▸ h.digits)
  obtain ⟨hweight, hlength⟩ := h.weight hne
  have hvalue := h.value hne
  rw [heq, length_cons] at hlength hvalue
  have hexp : (var.weight + 1 - ((ds.length + 1 : ℕ) : ℤ)).toNat = var.weight.toNat - ds.length := by
    omega
  have hpow : nbase ^ ds.length * nbase ^ (var.weight.toNat - ds.length) = nbase ^ var.weight.toNat := by
    rw [← pow_add]
    congr 1
    omega
  rw [hexp, value_cons] at hvalue
  refine ⟨hne, hd, hds, ?_, by omega⟩
  rw [accumulated]
  linear_combination hvalue + d * hpow

theorem accumulated_le (n : ℕ) (hds : Digits nbase ds) (hval : 0 ≤ val) :
    val ≤ accumulated n ds val := by
  have hpow : 1 ≤ nbase ^ n := one_le_pow₀ (by decide)
  have hrest : 0 ≤ value nbase ds * nbase ^ (n - ds.length) :=
    mul_nonneg (hds.nonneg nbase_pos.le) (pow_pos nbase_pos _).le
  rw [accumulated]
  nlinarith

theorem int64Loop_succ (n : ℕ) (hds : Digits nbase ds) (hval : 0 ≤ val) :
    int64Loop (n + 1) ds (-val) =
      if int64Min ≤ -(val * nbase + ds.headD 0) then int64Loop n ds.tail (-(val * nbase + ds.headD 0))
      else none := by
  have hbase : 0 ≤ val * nbase := mul_nonneg hval nbase_pos.le
  have hmax : ∀ x : ℤ, 0 ≤ x → s64 (-x) = if int64Min ≤ -x then some (-x) else none := fun x hx =>
    if_congr (and_iff_left (le_trans (neg_nonpos.2 hx) (by decide))) rfl rfl
  rw [int64Loop, neg_mul, hmax _ hbase]
  cases ds with
  | nil =>
    rw [headD_nil, add_zero]
    split <;> rfl
  | cons d ds => ?_
  have hd := (hds d mem_cons_self).1
  rw [headD_cons, tail_cons]
  split
  next =>
    simp only [Option.bind_eq_bind, Option.bind_some]
    rw [← neg_add', hmax _ (by omega)]
    split <;> rfl
  next => exact (if_neg (by omega)).symm

/-- The loop accumulates the negative, and stops as soon as it is out of range. -/
theorem int64Loop_spec (hds : Digits nbase ds) (hlength : ds.length ≤ n) (hval : 0 ≤ val)
    (hmin : int64Min ≤ -val) :
    int64Loop n ds (-val) = if int64Min ≤ -accumulated n ds val then some (-accumulated n ds val)
      else none := by
  induction n generalizing ds val with
  | zero =>
    rw [int64Loop, accumulated_zero hlength, if_pos hmin]
  | succ n ih => ?_
  have htail : Digits nbase ds.tail := hds.mono (tail_subset ds)
  have hnext : 0 ≤ val * nbase + ds.headD 0 :=
    add_nonneg (mul_nonneg hval nbase_pos.le) (headD_digit hds).1
  have hle := accumulated_le n htail hnext
  rw [int64Loop_succ n hds hval, accumulated_succ hlength]
  split
  next hrange => exact ih htail (by rw [length_tail]; omega) hnext hrange
  next hrange => rw [if_neg (by omega)]

def integerIn (lo hi z : ℤ) : Option ℤ := if lo ≤ z ∧ z ≤ hi then some z else none

theorem numericvarToInt64_eq (hvar : var.Valid) (hsize : (var.digits.length + 1) * 2 ≤ maxAllocSize)
    (hfits : Fits var.weight 0) :
    numericvarToInt64 var = .ok (integerIn int64Min int64Max var.toInteger) := by
  obtain ⟨rounded, hrounded, hint⟩ := roundToInteger_spec hvar hsize hfits
  rw [numericvarToInt64, hrounded, ok_bind]
  generalize var.toInteger = z at *
  split
  next hnil =>
    rw [hint.zero hnil]
    rfl
  rename_i d ds heq
  obtain ⟨hne, hd, hds, habs, hlength⟩ := hint.cons heq
  have hmin : int64Min ≤ -d := by
    have : d < 10000 := hd.2
    rw [int64Min]
    omega
  have hweight : rounded.weight ≥ 0 ∧ rounded.ndigits ≤ rounded.weight + 1 := hint.weight hne
  rw [assert_ok hweight, int64Loop_spec hds hlength hd.1 hmin, ← habs]
  have hsign := hint.sign hne
  unfold integerIn int64Min int64Max
  by_cases hneg : z < 0
  · rw [abs_of_neg hneg, neg_neg]
    by_cases hrange : -9223372036854775808 ≤ z
    · rw [if_pos hrange, if_pos ⟨hrange, by omega⟩]
      simp only [hsign.2 hneg, if_true]
      rfl
    · rw [if_neg hrange, if_neg fun h => hrange h.1]
      rfl
  rw [abs_of_nonneg (not_lt.1 hneg)]
  by_cases hrange : -9223372036854775808 ≤ -z
  · rw [if_pos hrange]
    simp only [if_neg fun h => hneg (hsign.1 h), neg_neg]
    split
    next hmin => rw [if_neg (by omega)]; rfl
    next hmin => rw [if_pos (by omega)]; rfl
  · rw [if_neg hrange, if_neg (by omega)]
    rfl

theorem wrap128_of_mem (h : int128Min ≤ x ∧ x ≤ int128Max) : wrap128 x = x := by
  unfold wrap128 int128Min int128Max at *
  omega

theorem wrap128_add_wrap128 (x y : ℤ) : wrap128 (wrap128 x + y) = wrap128 (x + y) := by
  unfold wrap128 int128Min
  omega

/-- A product that does not fit is noticed by the division. -/
theorem tdiv_wrap128_ne (hval : 0 < val) (hd : 0 ≤ d ∧ d < nbase) (hover : int128Max < val * nbase + d) :
    (wrap128 (val * nbase + d)).tdiv nbase ≠ val := by
  intro heq
  generalize hx : val * nbase + d = x at *
  have hpos : 0 ≤ wrap128 x := by
    by_contra hneg
    have hopposite : 0 ≤ (-wrap128 x).tdiv nbase := Int.tdiv_nonneg (by omega) nbase_pos.le
    rw [Int.neg_tdiv] at hopposite
    omega
  rw [tdiv_eq_ediv_of_nonneg hpos] at heq
  unfold wrap128 int128Min int128Max nbase at *
  omega

theorem tdiv_of_fits (hval : 0 < val) (hd : 0 ≤ d ∧ d < nbase) : (val * nbase + d).tdiv nbase = val := by
  unfold nbase at *
  rw [tdiv_eq_ediv_of_nonneg (by omega)]
  omega

theorem int128Loop_succ (neg : Bool) (n : ℕ) (ds : List ℤ) (val : ℤ) :
    int128Loop neg (n + 1) ds val =
      if (wrap128 (val * nbase + ds.headD 0)).tdiv nbase ≠ val ∧
          (!neg ∨ wrap128 (-wrap128 (val * nbase + ds.headD 0)) ≠ wrap128 (val * nbase + ds.headD 0) ∨
            wrap128 (val * nbase + ds.headD 0) = 0 ∨ val < 0) then none
      else int128Loop neg n ds.tail (wrap128 (val * nbase + ds.headD 0)) := by
  cases ds with
  | nil => rw [int128Loop, headD_nil, add_zero]
  | cons d ds => rw [int128Loop, headD_cons, wrap128_add_wrap128]

theorem int128Loop_negative (n : ℕ) (hds : Digits nbase ds) :
    int128Loop true (n + 1) ds int128Min = none := by
  obtain ⟨hlow, hhigh⟩ := headD_digit hds
  have hwrap : wrap128 (int128Min * nbase + ds.headD 0) = ds.headD 0 := by
    unfold wrap128 int128Min nbase at *
    omega
  rw [int128Loop_succ, hwrap, if_pos]
  refine ⟨?_, .inr (.inr (.inr (by decide)))⟩
  rw [tdiv_eq_ediv_of_nonneg hlow, ediv_eq_zero_of_lt hlow hhigh]
  decide

theorem eq_int128Min_of_neg_eq (h : wrap128 (-wrap128 x) = wrap128 x) (hne : wrap128 x ≠ 0) :
    wrap128 x = int128Min := by
  unfold wrap128 int128Min at *
  omega

/-- Of the products that do not fit, the test of a round lets those pass that wrap to the least
integer. -/
theorem overflow_passes_iff {neg : Bool} (hval : 0 < val) (hdiv : (wrap128 x).tdiv nbase ≠ val) :
    ¬ ((wrap128 x).tdiv nbase ≠ val ∧
      (!neg ∨ wrap128 (-wrap128 x) ≠ wrap128 x ∨ wrap128 x = 0 ∨ val < 0)) ↔
      neg = true ∧ wrap128 x = int128Min := by
  constructor
  · intro hpass
    cases neg with
    | false => exact absurd ⟨hdiv, .inl rfl⟩ hpass
    | true =>
      have hall := not_and.1 hpass hdiv
      rw [not_or, not_or, not_or, not_not] at hall
      exact ⟨rfl, eq_int128Min_of_neg_eq hall.2.1 hall.2.2.1⟩
  · rintro ⟨rfl, hmin⟩ ⟨-, hstop⟩
    rw [hmin] at hstop
    exact absurd hstop (by simpa using ⟨by decide, by decide, hval.le⟩)

/-- A value that wraps to the most negative one passes, if it does so in the last round. -/
theorem int128Loop_spec {neg : Bool} (hds : Digits nbase ds) (hlength : ds.length ≤ n)
    (hval : 0 < val ∧ val ≤ int128Max) :
    int128Loop neg n ds val =
      if accumulated n ds val ≤ int128Max then some (accumulated n ds val)
      else if neg = true ∧ wrap128 (accumulated n ds val) = int128Min ∧
          accumulated n ds val < nbase * 2 ^ 127
        then some int128Min
      else none := by
  induction n generalizing ds val with
  | zero =>
    rw [int128Loop, accumulated_zero hlength, if_pos hval.2]
  | succ n ih => ?_
  have hdigit := headD_digit hds
  have htail : Digits nbase ds.tail := hds.mono (tail_subset ds)
  have hlen : ds.tail.length ≤ n := by
    rw [length_tail]
    omega
  have hpos : 0 < val * nbase + ds.headD 0 := by
    have : 0 < val * nbase := mul_pos hval.1 nbase_pos
    omega
  rw [accumulated_succ hlength, int128Loop_succ]
  generalize hd : ds.headD 0 = d at *
  have hle := accumulated_le n htail hpos.le
  by_cases hfits : val * nbase + d ≤ int128Max
  · have hwrap : wrap128 (val * nbase + d) = val * nbase + d :=
      wrap128_of_mem ⟨le_trans (by decide) hpos.le, hfits⟩
    rw [hwrap, if_neg fun h => h.1 (tdiv_of_fits hval.1 hdigit)]
    exact ih htail hlen ⟨hpos, hfits⟩
  have hdiv := tdiv_wrap128_ne hval.1 hdigit (not_le.1 hfits)
  rw [if_neg (show ¬ accumulated n ds.tail (val * nbase + d) ≤ int128Max by omega)]
  -- the product wraps
  rw [← ite_not, if_congr (overflow_passes_iff hval.1 hdiv) rfl rfl]
  cases n with
  | zero =>
    rw [accumulated_zero hlen]
    have hlast : val * nbase + d < nbase * 2 ^ 127 := by
      unfold int128Max nbase at *
      omega
    refine ite_congr (propext (and_congr_right fun _ => (and_iff_left hlast).symm))
      (fun h => ?_) fun _ => rfl
    rw [h.2.1, int128Loop]
  | succ n =>
    have hnext := headD_digit htail
    have hle' := accumulated_le n (htail.mono (tail_subset _))
      (add_nonneg (mul_nonneg hpos.le nbase_pos.le) hnext.1)
    rw [← accumulated_succ hlen] at hle'
    have hlong : ¬ accumulated (n + 1) ds.tail (val * nbase + d) < nbase * 2 ^ 127 := by
      unfold int128Max nbase at *
      omega
    trans none
    · split
      next h => rw [h.1, h.2, int128Loop_negative n htail]
      next => rfl
    · exact (if_neg fun h => hlong h.2.2).symm

theorem wrap128_neg_iff {z : ℤ} (hfit : ¬ -z ≤ int128Max) :
    wrap128 (-z) = int128Min ∧ -z < nbase * 2 ^ 127 ↔
      wrap128 z = int128Min ∧ -(nbase * 2 ^ 127) < z ∧ z ≤ int128Min := by
  unfold wrap128 int128Min int128Max nbase at *
  constructor <;> intro <;> omega

/-- Values whose digits but the last fit wrap unnoticed to the least integer. -/
theorem numericvarToInt128_eq (hvar : var.Valid) (hsize : (var.digits.length + 1) * 2 ≤ maxAllocSize)
    (hfits : Fits var.weight 0) :
    numericvarToInt128 var = .ok (
      if wrap128 var.toInteger = int128Min ∧ -(nbase * 2 ^ 127) < var.toInteger ∧
          var.toInteger ≤ int128Min
        then some int128Min
      else integerIn int128Min int128Max var.toInteger) := by
  obtain ⟨rounded, hrounded, hint⟩ := roundToInteger_spec hvar hsize hfits
  rw [numericvarToInt128, hrounded, ok_bind]
  generalize var.toInteger = z at *
  split
  next hnil =>
    rw [hint.zero hnil]
    rfl
  rename_i d ds heq
  obtain ⟨hne, hd, hds, habs, hlength⟩ := hint.cons heq
  have hd1 := hint.head d ds heq
  have hmax : d ≤ int128Max := le_trans hd.2.le (by decide)
  have hweight : rounded.weight ≥ 0 ∧ rounded.ndigits ≤ rounded.weight + 1 := hint.weight hne
  have hsign := hint.sign hne
  rw [assert_ok hweight]
  dsimp only
  rw [int128Loop_spec hds hlength ⟨by omega, hmax⟩, ← habs]
  unfold integerIn
  by_cases hneg : z < 0
  · have hrneg : decide (rounded.sign = .neg) = true := decide_eq_true (hsign.2 hneg)
    rw [hrneg, abs_of_neg hneg]
    by_cases hfit : -z ≤ int128Max
    · rw [if_pos hfit, if_neg (by unfold int128Min int128Max at *; omega),
        if_pos (by unfold int128Min int128Max at *; omega)]
      simp only [if_true, neg_neg]
      rw [wrap128_of_mem (by unfold int128Min int128Max at *; omega)]
      rfl
    rw [if_neg hfit, if_congr ((and_iff_right rfl).trans (wrap128_neg_iff hfit)) rfl rfl]
    by_cases hlost : wrap128 z = int128Min ∧ -(nbase * 2 ^ 127) < z ∧ z ≤ int128Min
    · rw [if_pos hlost, if_pos hlost]
      rfl
    · rw [if_neg hlost, if_neg hlost, if_neg (by unfold wrap128 int128Min int128Max nbase at *; omega)]
      rfl
  have hrneg : decide (rounded.sign = .neg) = false := decide_eq_false fun h => hneg (hsign.1 h)
  have hlost : ¬ (wrap128 z = int128Min ∧ -(nbase * 2 ^ 127) < z ∧ z ≤ int128Min) := fun h =>
    hneg (lt_of_le_of_lt h.2.2 (by decide))
  rw [hrneg, abs_of_nonneg (not_lt.1 hneg), if_neg hlost]
  by_cases hfit : z ≤ int128Max
  · rw [if_pos hfit, if_pos ⟨le_trans (by decide) (not_lt.1 hneg), hfit⟩]
    rfl
  · have hout : ¬ (int128Min ≤ z ∧ z ≤ int128Max) := fun h => hfit h.2
    rw [if_neg hfit, if_neg hout]
    rfl

theorem digitLoop_spec {uval : ℤ} (hpos : 0 < uval) (hroom : uval < nbase ^ room) (acc : List ℤ) :
    ∃ digits unused, digitLoop room uval acc = .ok (digits ++ acc, unused) ∧ Digits nbase digits ∧
      digits ≠ [] ∧ value nbase digits = uval ∧ digits.length ≤ room := by
  induction room generalizing uval acc with
  | zero =>
    rw [pow_zero] at hroom
    omega
  | succ room ih => ?_
  have hmod : uval - uval / nbase * nbase = uval % nbase := by
    rw [emod_def]
    ring
  have hdigit : 0 ≤ uval % nbase ∧ uval % nbase < nbase :=
    ⟨emod_nonneg _ nbase_pos.ne', emod_lt_of_pos _ nbase_pos⟩
  rw [digitLoop, hmod]
  split
  next hmore =>
    have hquot : 0 < uval / nbase := lt_of_le_of_ne (ediv_nonneg hpos.le nbase_pos.le) (Ne.symm hmore)
    have hquotlt : uval / nbase < nbase ^ room := Int.ediv_lt_of_lt_mul nbase_pos (by rwa [← pow_succ])
    obtain ⟨digits, unused, hloop, hdigits, hne, hvalue, hlength⟩ :=
      ih hquot hquotlt (uval % nbase :: acc)
    refine ⟨digits ++ [uval % nbase], unused, ?_, ?_, by simp, ?_, by simpa using hlength⟩
    · rw [hloop, append_assoc, singleton_append]
    · exact hdigits.append (forall_mem_singleton.2 hdigit)
    · rw [value_concat, hvalue, mul_comm]
      exact mul_ediv_add_emod uval nbase
  rename_i hlast
  have hsmall : uval % nbase = uval := by
    have hdiv := mul_ediv_add_emod uval nbase
    rw [not_not.1 hlast, mul_zero, zero_add] at hdiv
    exact hdiv
  refine ⟨[uval % nbase], room, rfl, forall_mem_singleton.2 hdigit, by simp, ?_, by simp⟩
  rw [hsmall]
  simp [value]

structure FromInteger (room : ℕ) (z : ℤ) (var : NumericVar) : Prop where
  valid : var.Valid
  toRat : var.toRat = z
  length : var.digits.length ≤ room
  weight : -1 ≤ var.weight ∧ var.weight ≤ room

theorem intToNumericvar_spec {w : ℕ} (hroom : |z| < nbase ^ room) (hw : |z| < 2 ^ w) :
    ∃ var, intToNumericvar w room z = .ok var ∧ FromInteger room z var := by
  unfold intToNumericvar
  by_cases hzero : z = 0
  · subst hzero
    exact ⟨_, rfl, ⟨⟨fun d hd => absurd hd not_mem_nil, by decide⟩,
      by simp [toRat, magnitude, magnitudeOf_nil], by simp, by simp⟩⟩
  have huval : (if z < 0 then (-z) % 2 ^ w else z) = |z| := by
    split
    next hneg => rw [← abs_of_neg hneg, emod_eq_of_lt (abs_nonneg z) hw]
    next hneg => rw [abs_of_nonneg (not_lt.1 hneg)]
  obtain ⟨digits, unused, hloop, hdigits, hne, hvalue, hlength⟩ :=
    digitLoop_spec (abs_pos.2 hzero) hroom []
  have hmag : magnitudeOf digits (digits.length - 1) = ((|z| : ℤ) : ℚ) := by
    rw [magnitudeOf, hvalue, show (digits.length : ℤ) - 1 + 1 - digits.length = 0 by ring,
      zpow_zero, mul_one]
  rw [if_neg hzero, huval, hloop, append_nil]
  refine ⟨_, rfl, ⟨⟨hdigits, ?_⟩, ?_, hlength, ?_⟩⟩
  · split <;> simp
  · rw [toRat, magnitude, hmag]
    by_cases hneg : z < 0
    · rw [if_pos hneg, if_pos rfl, abs_of_neg hneg]
      push_cast
      ring
    · rw [if_neg hneg, if_neg (by simp), abs_of_nonneg (not_lt.1 hneg)]
  · dsimp only
    omega

theorem FromInteger.fits (h : FromInteger room z var) (hroom : room ≤ 10) :
    (var.digits.length + 1) * 2 ≤ maxAllocSize ∧ Fits var.weight 0 ∧ var.toInteger = z := by
  have hlength := h.length
  have hweight := h.weight
  refine ⟨?_, ⟨⟨?_, ?_⟩, ?_, ?_⟩, ?_⟩
  · rw [maxAllocSize]
    omega
  all_goals try (rw [intMax]; omega)
  rw [toInteger, h.toRat, away_halfUp_intCast]

/-- A conversion to 64 bits gives the value rounded half away from zero, or nothing if it is out of
range. So does a conversion to 128 bits, exactly if the value is not one of the 4999 that wrap to the
least integer in the last round. An integer comes back from the variable it is converted to. -/
theorem numericvar_integer_conversions (hvar : var.Valid)
    (hsize : (var.digits.length + 1) * 2 ≤ maxAllocSize) (hfits : Fits var.weight 0) :
    numericvarToInt64 var = .ok (integerIn int64Min int64Max var.toInteger) ∧
      (numericvarToInt128 var = .ok (integerIn int128Min int128Max var.toInteger) ↔
        ∀ k : ℕ, 1 ≤ k → k ≤ 4999 → var.toInteger ≠ -(2 ^ 127 + k * 2 ^ 128)) ∧
      (∀ z, int64Min ≤ z → z ≤ int64Max → (int64ToNumericvar z >>= numericvarToInt64) = .ok (some z)) ∧
      (∀ z, int128Min ≤ z → z ≤ int128Max →
        (int128ToNumericvar z >>= numericvarToInt128) = .ok (some z)) := by
  refine ⟨numericvarToInt64_eq hvar hsize hfits, ?_, fun z hmin hmax => ?_, fun z hmin hmax => ?_⟩
  · rw [numericvarToInt128_eq hvar hsize hfits, Except.ok.injEq, integerIn]
    generalize var.toInteger = z
    constructor
    · rintro h k hk hk' rfl
      rw [if_pos (by unfold wrap128 int128Min nbase; omega), if_neg (by unfold int128Min; omega)] at h
      cases h
    intro h
    split
    next hlost =>
      -- only the least integer itself is left
      have hk := h ((-z + int128Min) / 2 ^ 128).toNat
      have hmin : z = int128Min := by
        unfold wrap128 int128Min nbase at *
        omega
      rw [hmin]
      rfl
    next => rfl
  · have habs : |z| ≤ 9223372036854775808 := abs_le.2 ⟨hmin, le_trans hmax (by decide)⟩
    obtain ⟨v, hv, hfrom⟩ : ∃ v, int64ToNumericvar z = .ok v ∧ FromInteger 5 z v :=
      intToNumericvar_spec (lt_of_le_of_lt habs (by decide)) (lt_of_le_of_lt habs (by decide))
    obtain ⟨hsize, hfits, hz⟩ := hfrom.fits (by decide)
    rw [hv, ok_bind, numericvarToInt64_eq hfrom.valid hsize hfits, hz, integerIn, if_pos ⟨hmin, hmax⟩]
  have habs : |z| ≤ 170141183460469231731687303715884105728 := abs_le.2 ⟨hmin, le_trans hmax (by decide)⟩
  obtain ⟨v, hv, hfrom⟩ : ∃ v, int128ToNumericvar z = .ok v ∧ FromInteger 10 z v :=
    intToNumericvar_spec (lt_of_le_of_lt habs (by decide)) (lt_of_le_of_lt habs (by decide))
  obtain ⟨hsize, hfits, hz⟩ := hfrom.fits le_rfl
  rw [hv, ok_bind, numericvarToInt128_eq hfrom.valid hsize hfits, hz]
  split
  next h => rw [le_antisymm h.2.2 hmin]
  next => rw [integerIn, if_pos ⟨hmin, hmax⟩]

/-- The least integer of 128 bits. -/
theorem numericvar_integer_conversions_least :
    let var : NumericVar := ⟨[], [170, 1411, 8346, 469, 2317, 3168, 7303, 7158, 8410, 5728], 9, .neg, 0⟩
    numericvarToInt64 var = .ok none ∧ numericvarToInt128 var = .ok (some int128Min) := by
  intro var
  have hvalid : var.Valid := ⟨by decide, by decide⟩
  have hrat : var.toRat = ((-(2 ^ 127) : ℤ) : ℚ) := by
    norm_num [var, toRat, magnitude, magnitudeOf, value, nbase]
  obtain ⟨h64, h128, -⟩ :=
    numericvar_integer_conversions hvalid (by decide) ⟨⟨by decide, by decide⟩, by decide, by decide⟩
  rw [toInteger, hrat, away_halfUp_intCast] at h64 h128
  exact ⟨h64, h128.2 fun k hk _ => by omega⟩

/-- Three times the least integer is converted to the least integer. -/
theorem int128_wraps_to_least :
    let var : NumericVar := ⟨[], [510, 4235, 5038, 1407, 6951, 9506, 1911, 1476, 5231, 7184], 9, .neg, 0⟩
    var.Normalised ∧ var.toInteger = -(3 * 2 ^ 127) ∧ numericvarToInt128 var = .ok (some int128Min) := by
  intro var
  refine ⟨by decide, ?_, by decide +kernel⟩
  have hrat : var.toRat = ((-(3 * 2 ^ 127) : ℤ) : ℚ) := by
    norm_num [var, toRat, magnitude, magnitudeOf, value, nbase]
  rw [toInteger, hrat, away_halfUp_intCast]

end Pg.Numeric
