import PgRetrofit.Proofs.NumericAdd
import PgRetrofit.Proofs.NumericMul
import PgRetrofit.Proofs.NumericDiv

/-! `mod_var` gives the remainder of the truncating division. -/

namespace Pg.Numeric

open Positional Rounding Result Int NumericVar

/-- The remainder goes into any variable. No digit of it is lost if the quotient, the product and
the difference are in the range of the functions that compute them. -/
theorem modVar_exact {ι : Type} [DecidableEq ι] {s : ι → NumericVar} {var1 var2 result : ι}
    (h1 : (s var1).Normalised) (h2 : (s var2).Normalised) (hne : (s var2).digits ≠ [])
    (hends : (s var2).EndsWithin) (hdiv : DivFits (s var1) (s var2) 0 false)
    (hfits : ∀ quot, divVar (s var1) (s var2) 0 false = .ok quot →
      MulFits (s var2) quot (s var2).dscale ∧
        ∀ prod, mulVar (s var2) quot (s var2).dscale = .ok prod → AddFits (s var1) prod) :
    ∃ rem, modVar s var1 var2 result = .ok (Function.update s result rem) ∧ rem.Normalised ∧
      ∀ r : ℚ, r = rem.toRat ↔
      (s var1).toRat = truncAt 0 ((s var1).toRat / (s var2).toRat) * (s var2).toRat + r ∧
      |r| < |(s var2).toRat| ∧ (r = 0 ∨ 0 < r * (s var1).toRat) := by
  obtain ⟨quot, hquot, hq⟩ := divVar_spec h1 h2 hne le_rfl false hdiv
  rw [if_neg nofun] at hq
  -- an integer, so that the divisor's scale has room for all digits of the product
  have hqends : quot.EndsWithin := by
    refine ⟨|away (fun y => ⌊y⌋) ((s var1).toRat / (s var2).toRat)|, ?_⟩
    rw [← abs_toRat hq.normalised.digits, hq.toRat, hq.dscale, truncAt, zpow_zero, mul_one,
      mul_one, div_one, cast_abs]
  obtain ⟨hmul, hsub⟩ := hfits quot hquot
  obtain ⟨prod, hprod, hp⟩ :=
    mulVar_spec h2 hq.normalised hends hqends (by rw [hq.dscale, add_zero]) hmul
  let t : Option ι → NumericVar := fun var => var.elim prod s
  obtain ⟨-, s', hrun, rem, rfl, hnormal, hrem, -⟩ :=
    @addVar_subVar_spec _ _ t (some var1) none (some result) h1 hp.normalised (hsub prod hprod)
  refine ⟨rem, ?_, hnormal, fun r => ?_⟩
  · rw [modVar, hquot, ok_bind, hprod, ok_bind, hrun, ok_bind]
    refine congrArg Except.ok (funext fun var => ?_)
    rw [Function.update_apply, Function.update_apply]
    simp [t]
  · have hy : (s var2).toRat ≠ 0 := by
      rw [← abs_ne_zero, abs_toRat h2.digits]
      exact (h2.magnitude_pos hne).ne'
    rw [← truncAt_remainder hy, hrem, mul_comm, ← hq.toRat, ← hp.toRat]
    rfl

/-- -7.5 and 2, where the remainder replaces the first -/
theorem modVar_exact_alias :
    let s : Bool → NumericVar :=
      fun var => if var then ⟨[], [7, 5000], 0, .neg, 1⟩ else ⟨[], [2], 0, .pos, 0⟩
    ∃ rem, modVar s true false true = .ok (Function.update s true rem) ∧
    |rem.toRat| < |(s false).toRat| := by
  intro s
  have h1 : (s true).Normalised := by decide
  have h2 : (s false).Normalised := by decide
  have hends : (s false).EndsWithin := ⟨2, by norm_num [s, magnitude, magnitudeOf, value]⟩
  have hdiv : divVar (s true) (s false) 0 false = .ok ⟨[some 0], [3], 0, .neg, 0⟩ := by decide +kernel
  have hmul : mulVar (s false) ⟨[some 0], [3], 0, .neg, 0⟩ 0 = .ok ⟨[some 0, some 0, some 0], [6], 0,
    .neg, 0⟩ := by decide +kernel
  obtain ⟨rem, hrem, -, hspec⟩ := @modVar_exact _ _ s true false true h1 h2 (by decide) hends
    ⟨by decide, by decide, by decide, ⟨by decide, by decide, by decide⟩⟩ fun quot hquot => by
      obtain rfl := Except.ok.inj (hdiv.symm.trans hquot)
      refine ⟨⟨by decide, by decide, by decide, by decide, by decide, ⟨by decide, by decide, by decide⟩⟩,
        fun prod hprod => ?_⟩
      obtain rfl := Except.ok.inj (hmul.symm.trans hprod)
      exact ⟨⟨by decide, by decide, by decide⟩, by decide⟩
  exact ⟨rem, hrem, ((hspec _).1 rfl).2.1⟩

/-- The quotient of 10000 ^ (2 ^ 30) by 1 has too many digits to allocate. -/
theorem modVar_too_many_digits :
    let s : Bool → NumericVar :=
      fun var => if var then ⟨[], [1], 2 ^ 30, .pos, 0⟩ else ⟨[], [1], 0, .pos, 0⟩
    (s true).Normalised ∧ (s true).EndsWithin ∧ (s false).Normalised ∧ (s false).EndsWithin ∧
      modVar s true false true = .error (.backend (.allocSize 2147483658)) :=
  ⟨by decide, scaled_integer _ _ 0 (by decide), by decide,
    scaled_integer _ _ 0 (by decide), by decide +kernel⟩

end Pg.Numeric
