import PgRetrofit.Lib.Result
import PgRetrofit.Spec.Numeric

/-! What a `NumericVar` stands for. `strip_var` leaves it as it is, and `cmp_abs` compares it. -/

namespace Pg.Numeric

open Positional List NumericVar

def IsInt (x : ℤ) : Prop := -intMax - 1 ≤ x ∧ x ≤ intMax

instance (x : ℤ) : Decidable (IsInt x) := inferInstanceAs (Decidable (_ ∧ _))

theorem int_ok {x : ℤ} (h : IsInt x) : int x = .ok x := if_pos h

theorem assert_ok {p : Prop} [Decidable p] (h : p) : assert p = .ok () := if_pos h

theorem read_ok {digits : List ℤ} {i : ℕ} (h : i < digits.length) : read digits i = .ok digits[i] := by
  rw [read, getElem?_eq_getElem h]

theorem alloc_ok {n : ℤ} {size : ℕ} (h : n.toNat * size ≤ maxAllocSize) : alloc n size = .ok () := by
  rw [alloc, palloc_ok h]
  rfl

theorem nbase_pos : (0 : ℤ) < nbase := by decide

theorem nbase_cast : ((nbase : ℤ) : ℚ) = 10000 := by
  rw [nbase]
  norm_num

def magnitudeOf (digits : List ℤ) (weight : ℤ) :
    ℚ := value nbase digits * 10000 ^ (weight + 1 - digits.length)

def NumericVar.magnitude (var : NumericVar) : ℚ := magnitudeOf var.digits var.weight

def NumericVar.toRat (var : NumericVar) : ℚ := if var.sign = .neg then -var.magnitude else var.magnitude

structure NumericVar.Valid (var : NumericVar) : Prop where
  digits : Digits nbase var.digits
  number : var.sign ≠ .nan

/-- no leading and no trailing zero digit -/
structure NumericVar.Normalised (var : NumericVar) : Prop extends var.Valid where
  head : var.digits.head? ≠ some 0
  last : var.digits.getLast? ≠ some 0

instance (var : NumericVar) : Decidable var.Normalised :=
  decidable_of_iff ((Digits nbase var.digits ∧ var.sign ≠ .nan) ∧ var.digits.head? ≠ some 0 ∧
    var.digits.getLast? ≠ some 0)
    ⟨fun h => ⟨⟨h.1.1, h.1.2⟩, h.2.1, h.2.2⟩, fun h => ⟨⟨h.1.1, h.1.2⟩, h.2, h.3⟩⟩

/-- a normalised number with the given value and scale -/
structure IsNumber (x : ℚ) (dscale : ℤ) (var : NumericVar) : Prop where
  normalised : var.Normalised
  toRat : var.toRat = x
  dscale : var.dscale = dscale

theorem magnitudeOf_nil (weight : ℤ) : magnitudeOf [] weight = 0 := by
  simp [magnitudeOf]

theorem isNumber_zero (dscale : ℤ) : IsNumber 0 dscale ⟨[], [], 0, .pos, dscale⟩ :=
  ⟨⟨⟨fun _ hd => absurd hd not_mem_nil, nofun⟩, nofun, nofun⟩, magnitudeOf_nil 0, rfl⟩

theorem magnitudeOf_cons (d : ℤ) (ds : List ℤ) (weight : ℤ) :
    magnitudeOf (d :: ds) weight = d * 10000 ^ weight + magnitudeOf ds (weight - 1) := by
  have hpow : (10000 : ℚ) ^ ds.length * 10000 ^ (weight + 1 - (ds.length + 1 : ℤ)) = 10000 ^ weight := by
    rw [← zpow_natCast, ← zpow_add₀ (by norm_num)]
    congr 1
    ring
  rw [magnitudeOf, magnitudeOf, value_cons, length_cons,
    show weight - 1 + 1 - (ds.length : ℤ) = weight + 1 - (ds.length + 1 : ℤ) by ring]
  push_cast
  rw [nbase_cast, add_mul, mul_assoc, hpow]

theorem magnitudeOf_concat_zero (ds : List ℤ) (weight : ℤ) :
    magnitudeOf (ds ++ [0]) weight = magnitudeOf ds weight := by
  have hpow : (10000 : ℚ) * 10000 ^ (weight + 1 - (ds.length + 1 : ℤ)) =
      10000 ^ (weight + 1 - (ds.length : ℤ)) := by
    rw [← zpow_one_add₀ (by norm_num)]
    congr 1
    ring
  rw [magnitudeOf, magnitudeOf, value_concat, length_append, length_singleton]
  push_cast
  rw [nbase_cast, add_zero, mul_assoc, hpow]

variable {ds : List ℤ}

section

variable (h : Digits nbase ds) (weight : ℤ)
include h

theorem magnitudeOf_nonneg : 0 ≤ magnitudeOf ds weight := by
  have hvalue : (0 : ℚ) ≤ value nbase ds := by exact_mod_cast h.nonneg nbase_pos.le
  exact mul_nonneg hvalue (by positivity)

theorem magnitudeOf_lt : magnitudeOf ds weight < 10000 ^ (weight + 1) := by
  have hvalue : (value nbase ds : ℚ) < 10000 ^ ds.length := by
    exact_mod_cast h.value_lt nbase_pos
  have hpow : (10000 : ℚ) ^ (weight + 1) = 10000 ^ ds.length * 10000 ^ (weight + 1 - ds.length : ℤ) := by
    rw [← zpow_natCast, ← zpow_add₀ (by norm_num)]
    congr 1
    ring
  rw [hpow]
  exact mul_lt_mul_of_pos_right hvalue (by positivity)

theorem magnitudeOf_eq_zero_iff : magnitudeOf ds weight = 0 ↔ ∀ d ∈ ds, d = 0 := by
  induction ds generalizing weight with
  | nil => simp [magnitudeOf_nil]
  | cons d ds ih => ?_
  obtain ⟨hd, hds⟩ := forall_mem_cons.1 h
  have hrest := magnitudeOf_nonneg hds (weight - 1)
  have hd0 : (0 : ℚ) ≤ d * 10000 ^ weight := mul_nonneg (by exact_mod_cast hd.1) (by positivity)
  rw [magnitudeOf_cons, forall_mem_cons, ← ih hds (weight - 1)]
  constructor
  · intro hsum
    have hfirst : (d : ℚ) * 10000 ^ weight = 0 := by linarith
    have hpow : (10000 : ℚ) ^ weight ≠ 0 := by positivity
    exact ⟨by simpa using (mul_eq_zero.1 hfirst).resolve_right hpow, by linarith⟩
  · rintro ⟨rfl, hzero⟩
    simp [hzero]

theorem magnitudeOf_pos {d : ℤ} (hd : d ∈ ds) (hne : d ≠ 0) : 0 < magnitudeOf ds weight := by
  refine lt_of_le_of_ne (magnitudeOf_nonneg h weight) fun hzero => hne ?_
  exact (magnitudeOf_eq_zero_iff h weight).1 hzero.symm d hd

end

variable {ds1 ds2 : List ℤ} {var : NumericVar}

/-- The first digit decides. -/
theorem magnitudeOf_cons_lt {d1 d2 : ℤ} (h1 : Digits nbase (d1 :: ds1)) (h2 : Digits nbase (d2 :: ds2))
    (hlt : d1 < d2) (weight : ℤ) :
    magnitudeOf (d1 :: ds1) weight < magnitudeOf (d2 :: ds2) weight := by
  have hrest1 := magnitudeOf_lt (forall_mem_cons.1 h1).2 (weight - 1)
  have hrest2 := magnitudeOf_nonneg (forall_mem_cons.1 h2).2 (weight - 1)
  have hdigits : (d1 : ℚ) + 1 ≤ d2 := by exact_mod_cast hlt
  have hpos : (0 : ℚ) < 10000 ^ weight := by positivity
  rw [sub_add_cancel] at hrest1
  rw [magnitudeOf_cons, magnitudeOf_cons]
  nlinarith

theorem NumericVar.Valid.magnitude_nonneg (h : var.Valid) : 0 ≤ var.magnitude :=
  magnitudeOf_nonneg h.digits _

theorem NumericVar.Normalised.value_pos (h : var.Normalised) (hne : var.digits ≠ []) :
    0 < value nbase var.digits := by
  have hhead : var.digits.head hne ≠ 0 := fun hzero => h.head (by rw [head?_eq_some_head hne, hzero])
  exact lt_of_lt_of_le (pow_pos nbase_pos _) (h.digits.le_value nbase_pos hne hhead)

theorem NumericVar.Normalised.magnitude_pos (h : var.Normalised) (hne : var.digits ≠ []) :
    0 < var.magnitude :=
  mul_pos (by exact_mod_cast h.value_pos hne) (by positivity)

theorem abs_toRat (h : Digits nbase var.digits) : |var.toRat| = var.magnitude := by
  have hnonneg : 0 ≤ var.magnitude := magnitudeOf_nonneg h var.weight
  rw [toRat]
  split_ifs
  · rw [abs_neg, abs_of_nonneg hnonneg]
  · exact abs_of_nonneg hnonneg

theorem stripLeading_spec (spare : List (Option ℤ)) (digits : List ℤ) (weight : ℤ) :
    ∃ spare' digits' weight', stripLeading spare digits weight = (spare', digits', weight') ∧
      digits' <:+ digits ∧ digits'.head? ≠ some 0 ∧
      magnitudeOf digits' weight' = magnitudeOf digits weight := by
  induction digits generalizing spare weight with
  | nil => exact ⟨spare, [], weight, rfl, suffix_rfl, nofun, rfl⟩
  | cons d ds ih => ?_
  rw [stripLeading]
  split
  next hzero =>
    obtain ⟨spare', digits', weight', heq, hsuffix, hhead, hmag⟩ := ih (some 0 :: spare) (weight - 1)
    refine ⟨spare', digits', weight', heq, hsuffix.trans (suffix_cons d ds), hhead, ?_⟩
    rw [hmag, magnitudeOf_cons, hzero]
    simp
  next hne => exact ⟨spare, d :: ds, weight, rfl, suffix_rfl, by simpa using hne, rfl⟩

theorem magnitudeOf_rdropWhile (ds : List ℤ) (weight : ℤ) :
    magnitudeOf (ds.rdropWhile (· = 0)) weight = magnitudeOf ds weight := by
  induction ds using reverseRecOn with
  | nil => rfl
  | append_singleton ds d ih =>
    by_cases hzero : d = 0
    · rw [hzero, rdropWhile_concat_pos _ _ _ (by simp), ih, magnitudeOf_concat_zero]
    · rw [rdropWhile_concat_neg _ _ _ (by simpa using hzero)]

theorem rdropWhile_head (h : ds.head? ≠ some 0) : (ds.rdropWhile (· = 0)).head? ≠ some 0 := by
  intro hhead
  have hpre := rdropWhile_prefix (fun d : ℤ => decide (d = 0)) (l := ds)
  obtain ⟨rest, hrest⟩ := hpre
  refine h ?_
  rw [← hrest, head?_append, hhead, Option.some_or]

theorem rdropWhile_last (ds : List ℤ) : (ds.rdropWhile (· = 0)).getLast? ≠ some 0 := by
  intro hlast
  have hne : ds.rdropWhile (· = 0) ≠ [] := fun hnil => by
    rw [hnil] at hlast
    exact nomatch hlast
  rw [getLast?_eq_some_getLast hne] at hlast
  have hnot := rdropWhile_last_not (fun d : ℤ => decide (d = 0)) ds hne
  rw [Option.some.inj hlast] at hnot
  exact hnot (by decide)

/-- What `strip_var` does: it normalises without a change of the value. -/
structure Stripped (var result : NumericVar) : Prop where
  digits : Digits nbase result.digits
  head : result.digits.head? ≠ some 0
  last : result.digits.getLast? ≠ some 0
  magnitude : result.magnitude = var.magnitude
  dscale : result.dscale = var.dscale
  sign : result.sign = var.sign ∨ result.digits = [] ∧ result.weight = 0 ∧ result.sign = .pos

theorem stripVar_spec (h : Digits nbase var.digits) : Stripped var (stripVar var) := by
  obtain ⟨spare, digits, weight, heq, hsuffix, hhead, hmag⟩ :=
    stripLeading_spec var.spare var.digits var.weight
  have hdigits : Digits nbase (digits.rdropWhile (· = 0)) :=
    (h.mono hsuffix.subset).mono ( rdropWhile_prefix _ digits).subset
  have hmag' : magnitudeOf (digits.rdropWhile (· = 0)) weight = var.magnitude :=
    (magnitudeOf_rdropWhile digits weight).trans hmag
  simp only [stripVar, heq]
  split
  next hnil =>
    rw [hnil, magnitudeOf_nil] at hmag'
    exact
      { digits := fun d hd => absurd hd not_mem_nil
        head := nofun
        last := nofun
        magnitude := (magnitudeOf_nil 0).trans hmag'
        dscale := rfl
        sign := .inr ⟨rfl, rfl, rfl⟩ }
  rename_i hne
  exact
    { digits := hdigits
      head := rdropWhile_head hhead
      last := rdropWhile_last digits
      magnitude := hmag'
      dscale := rfl
      sign := .inl rfl }

variable {var result : NumericVar} (h : Stripped var result)
include h

theorem Stripped.normalised (hnumber : var.sign ≠ .nan) : result.Normalised := by
  refine ⟨⟨h.digits, ?_⟩, h.head, h.last⟩
  rcases h.sign with hsign | ⟨-, -, hsign⟩
  · rwa [hsign]
  · rw [hsign]
    exact nofun

theorem Stripped.magnitude_eq_zero (hnil : result.digits = []) : var.magnitude = 0 := by
  rw [← h.magnitude, NumericVar.magnitude, hnil, magnitudeOf_nil]

theorem Stripped.toRat : result.toRat = var.toRat := by
  rw [NumericVar.toRat, NumericVar.toRat, h.magnitude]
  rcases h.sign with hsign | ⟨hnil, -⟩
  · rw [hsign]
  · simp [h.magnitude_eq_zero hnil]

omit h

/-- `r` tells how `x` compares with `y`. -/
def Compares (r : ℤ) (x y : ℚ) : Prop := (r = 0 ∧ x = y) ∨ (r = 1 ∧ y < x) ∨ (r = -1 ∧ x < y)

theorem cmpDigits_compares (h1 : Digits nbase ds1) (h2 : Digits nbase ds2) (weight : ℤ) :
    Compares (cmpDigits ds1 ds2) (magnitudeOf ds1 weight) (magnitudeOf ds2 weight) := by
  induction ds1, ds2 using cmpDigits.induct generalizing weight with
  | case1 => exact .inl ⟨by rw [cmpDigits], rfl⟩
  | case2 d2 ds2 hne =>
    rw [cmpDigits, if_pos hne]
    refine .inr (.inr ⟨rfl, ?_⟩)
    rw [magnitudeOf_nil]
    exact magnitudeOf_pos h2 weight mem_cons_self hne
  | case3 d2 ds2 hzero ih =>
    obtain ⟨hd, hds⟩ := forall_mem_cons.1 h2
    rw [cmpDigits, magnitudeOf_cons, not_not.1 hzero]
    simpa [magnitudeOf_nil] using ih h1 hds (weight - 1)
  | case4 d1 ds1 hne =>
    rw [cmpDigits, if_pos hne]
    refine .inr (.inl ⟨rfl, ?_⟩)
    rw [magnitudeOf_nil]
    exact magnitudeOf_pos h1 weight mem_cons_self hne
  | case5 d1 ds1 hzero ih =>
    obtain ⟨hd, hds⟩ := forall_mem_cons.1 h1
    rw [cmpDigits, magnitudeOf_cons, not_not.1 hzero]
    simpa [magnitudeOf_nil] using ih hds h2 (weight - 1)
  | case6 d1 ds1 d2 ds2 heq ih =>
    obtain ⟨-, hds1⟩ := forall_mem_cons.1 h1
    obtain ⟨-, hds2⟩ := forall_mem_cons.1 h2
    rw [cmpDigits, if_pos heq, magnitudeOf_cons, magnitudeOf_cons, show d1 = d2 by omega]
    exact (ih hds1 hds2 (weight - 1)).imp (And.imp_right fun h => by rw [h])
      (Or.imp (And.imp_right fun h => by linarith) (And.imp_right fun h => by linarith))
  | case7 d1 ds1 d2 ds2 hne hgt =>
    rw [cmpDigits, if_neg hne, if_pos hgt]
    exact .inr (.inl ⟨rfl, magnitudeOf_cons_lt h2 h1 (by omega) weight⟩)
  | case8 d1 ds1 d2 ds2 hne hgt =>
    rw [cmpDigits, if_neg hne, if_neg hgt]
    exact .inr (.inr ⟨rfl, magnitudeOf_cons_lt h1 h2 (by omega) weight⟩)

theorem cmpRest_compares (h1 : Digits nbase ds1) (h2 : Digits nbase ds2) (hnil : ds1 = [] ∨ ds2 = [])
    (weight1 weight2 : ℤ) :
    Compares (cmpRest ds1 ds2) (magnitudeOf ds1 weight1) (magnitudeOf ds2 weight2) := by
  have hpos : ∀ {ds : List ℤ}, Digits nbase ds →
      ∀ weight, ds.any (· ≠ 0) = true → 0 < magnitudeOf ds weight := by
    intro ds h weight hany
    obtain ⟨d, hd, hne⟩ := any_eq_true.1 hany
    exact magnitudeOf_pos h weight hd (by simpa using hne)
  have hzero : ∀ {ds : List ℤ}, Digits nbase ds →
      ∀ weight, ¬ ds.any (· ≠ 0) = true → magnitudeOf ds weight = 0 := by
    intro ds h weight hany
    refine (magnitudeOf_eq_zero_iff h weight).2 fun d hd => ?_
    by_contra hne
    exact hany (any_eq_true.2 ⟨d, hd, by simpa using hne⟩)
  unfold cmpRest
  split
  next hany =>
    obtain rfl : ds2 = [] := hnil.resolve_left fun hnil1 => by simp [hnil1] at hany
    exact .inr (.inl ⟨rfl, by rw [magnitudeOf_nil]; exact hpos h1 weight1 hany⟩)
  next hany1 =>
    rw [hzero h1 weight1 hany1]
    split
    next hany => exact .inr (.inr ⟨rfl, hpos h2 weight2 hany⟩)
    next hany2 => exact .inl ⟨rfl, (hzero h2 weight2 hany2).symm⟩

/-- Either a digit above the other number decides, or the digits above it are zeros. -/
theorem skipZeros_spec (h : Digits nbase ds) (weight other : ℤ) :
    match skipZeros ds weight other with
    | none => (10000 : ℚ) ^ (other + 1) ≤ magnitudeOf ds weight
    | some (ds', weight') => Digits nbase ds' ∧ magnitudeOf ds' weight' = magnitudeOf ds weight ∧
        (weight' = min weight other ∨ ds' = [] ∧ other < weight') := by
  induction ds generalizing weight with
  | nil =>
    refine ⟨h, rfl, ?_⟩
    by_cases hle : weight ≤ other
    · exact .inl (min_eq_left hle).symm
    · exact .inr ⟨rfl, not_le.1 hle⟩
  | cons d ds ih => ?_
  obtain ⟨hd, hds⟩ := forall_mem_cons.1 h
  rw [skipZeros]
  by_cases hgt : weight > other
  · rw [if_pos hgt]
    by_cases hne : d ≠ 0
    · rw [if_pos hne]
      have hone : (1 : ℚ) ≤ d := by
        have : 1 ≤ d := by omega
        exact_mod_cast this
      have hrest := magnitudeOf_nonneg hds (weight - 1)
      have hpow : (10000 : ℚ) ^ (other + 1) ≤ 10000 ^ weight :=
        zpow_le_zpow_right₀ (by norm_num) (by omega)
      have hpos : (0 : ℚ) < 10000 ^ weight := by positivity
      rw [magnitudeOf_cons]
      nlinarith
    rw [if_neg hne, magnitudeOf_cons, not_not.1 hne]
    have hstep := ih hds (weight - 1)
    rw [Int.cast_zero, zero_mul, zero_add]
    split at hstep
    next => exact hstep
    next ds' weight' _ =>
      refine ⟨hstep.1, hstep.2.1, hstep.2.2.imp_left fun hmin => ?_⟩
      omega
  · rw [if_neg hgt]
    exact ⟨h, rfl, .inl (min_eq_left (not_lt.1 hgt)).symm⟩

theorem cmpAbs_compares {var1 var2 : NumericVar} (h1 : Digits nbase var1.digits)
    (h2 : Digits nbase var2.digits) :
    Compares (cmpAbs var1 var2) var1.magnitude var2.magnitude := by
  have hskip1 := skipZeros_spec h1 var1.weight var2.weight
  rw [cmpAbs]
  cases heq1 : skipZeros var1.digits var1.weight var2.weight with
  | none =>
    rw [heq1] at hskip1
    exact .inr (.inl ⟨rfl, lt_of_lt_of_le (magnitudeOf_lt h2 var2.weight) hskip1⟩)
  | some skipped => ?_
  obtain ⟨ds1, weight1⟩ := skipped
  rw [heq1] at hskip1
  obtain ⟨hds1, hmag1, hweight1⟩ := hskip1
  have hskip2 := skipZeros_spec h2 var2.weight weight1
  dsimp only
  rw [magnitude, magnitude, ← hmag1]
  cases heq2 : skipZeros var2.digits var2.weight weight1 with
  | none =>
    rw [heq2] at hskip2
    exact .inr (.inr ⟨rfl, lt_of_lt_of_le (magnitudeOf_lt hds1 weight1) hskip2⟩)
  | some skipped => ?_
  obtain ⟨ds2, weight2⟩ := skipped
  rw [heq2] at hskip2
  obtain ⟨hds2, hmag2, hweight2⟩ := hskip2
  dsimp only
  rw [← hmag2]
  split
  next hsame =>
    rw [hsame]
    exact cmpDigits_compares hds1 hds2 weight2
  rename_i hdiffer
  refine cmpRest_compares hds1 hds2 ?_ weight1 weight2
  -- one number ran out of digits above the other
  rcases hweight1 with hmin1 | ⟨hnil, -⟩
  · rcases hweight2 with hmin2 | ⟨hnil, -⟩
    · exact absurd (by omega : weight1 = weight2) hdiffer
    · exact .inr hnil
  · exact .inl hnil

end Pg.Numeric
