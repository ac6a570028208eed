import PgRetrofit.Sanity.JulianDays
import PgRetrofit.Spec.Int128

/-! The emulated 128-bit operations are the native ones. -/

namespace Pg.Int128

open Timestamp INT128

variable {i : INT128} {v x y : ℤ}

theorem val_of (hi lo : ℤ) : (INT128.of hi lo).val ≡ hi * 2 ^ 64 + lo % 2 ^ 64 [ZMOD 2 ^ 128] := by
  simp only [val, INT128.of, toInt64, toUint64, Int.ModEq]
  omega

theorem val_addUint64 (hv : IsUint64 v) : (int128AddUint64 i v).val ≡ i.val + v [ZMOD 2 ^ 128] := by
  have hlo := i.lo_range
  refine (val_of _ _).trans ?_
  unfold val toInt64 toUint64 Int.ModEq
  split_ifs <;> omega

theorem val_addInt64 (hv : IsInt64 v) : (int128AddInt64 i v).val ≡ i.val + v [ZMOD 2 ^ 128] := by
  have hlo := i.lo_range
  refine (val_of _ _).trans ?_
  unfold val toInt64 toUint64 Int.ModEq
  split_ifs <;> omega

theorem val_addMiddle (hx : 0 ≤ x → 0 ≤ y) (hy : IsInt64 y) :
    (addMiddle i x (toInt64 y)).val ≡ i.val + y * 2 ^ 32 [ZMOD 2 ^ 128] := by
  have hlo := i.lo_range
  rw [toInt64_of hy]
  refine (val_addUint64 (by unfold toUint64; omega)).trans (((val_of _ _).add_right _).trans ?_)
  unfold val toUint64 int64Au32 int64Al32 Int.ModEq
  split_ifs <;> omega

theorem mul_range (hx : -2 ^ 31 ≤ x ∧ x < 2 ^ 31) (hy : 0 ≤ y ∧ y < 2 ^ 32) : IsInt64 (x * y) := by
  constructor <;> nlinarith

theorem halves (x : ℤ) : x = int64Au32 x * 2 ^ 32 + int64Al32 x ∧ 0 ≤ int64Al32 x ∧
    int64Al32 x < 2 ^ 32 := by
  unfold int64Au32 int64Al32
  omega

/-- The four partial products, each added where it belongs. -/
theorem val_addMul (hx : IsInt64 x) (hy : IsInt64 y) :
    (int128AddInt64MulInt64 i x y).val ≡ i.val + x * y [ZMOD 2 ^ 128] := by
  unfold int128AddInt64MulInt64
  split_ifs with h
  · have hlo := i.lo_range
    obtain ⟨hab, hb⟩ := halves x
    obtain ⟨hcd, hd⟩ := halves y
    generalize int64Au32 x = a, int64Al32 x = b, int64Au32 y = c, int64Al32 y = d at *
    have had := mul_range (x := a) (by omega) hd
    have hcb := mul_range (x := c) (by omega) hb
    have hbd : IsUint64 (b * d) := ⟨by nlinarith, by nlinarith⟩
    have hprod : i.val + x * y = i.hi * 2 ^ 64 + a * c * 2 ^ 64 + i.lo + a * d * 2 ^ 32 + c *
        b * 2 ^ 32 + b * d := by
      rw [hab, hcd, val]
      ring
    rw [hprod, mul_comm b c, toUint64, Int.emod_eq_of_lt hbd.1 hbd.2]
    refine (val_addUint64 hbd).trans
      (.add_right _ ((val_addMiddle (fun _ => mul_nonneg (by omega) hb.1) hcb).trans (.add_right _ ?_)))
    refine (val_addMiddle (fun _ => mul_nonneg (by omega) hd.1) had).trans
      (.add_right _ ((val_of _ _).trans ?_))
    unfold toInt64 Int.ModEq
    omega
  · rcases not_and_or.1 h with h | h <;> rw [not_not.1 h] <;> simp

theorem native_of (h : i.val ≡ x [ZMOD 2 ^ 128]) : i.val = toInt128 x := by
  have hhi := i.hi_range
  have hlo := i.lo_range
  unfold val toInt128 Int.ModEq at *
  omega

theorem int128Compare_eq (x y : INT128) : int128Compare x y = compare x.val y.val := by
  have hx := x.lo_range
  have hy := y.lo_range
  unfold int128Compare val
  split_ifs
  any_goals exact (compare_lt_iff_lt.2 (by omega)).symm
  any_goals exact (compare_gt_iff_gt.2 (by omega)).symm
  exact (compare_eq_iff_eq.2 (by omega)).symm

/-- Neither computation of the value overflows. -/
theorem intervalCmp_values {i : Interval} (h : Fits i) :
    (intervalCmpEmulated i).val = exactValue i ∧ intervalCmpNative i = exactValue i := by
  obtain ⟨ht, hd, hm⟩ := h
  have hq := tdiv_cases i.time 86400000000
  have hr := Int.tmod_add_mul_tdiv i.time 86400000000
  have hdays : intervalDays i = i.time.tdiv 86400000000 + i.month * 30 + i.day := by
    rw [intervalDays, usecsPerDay, toInt64_of (x := _ + i.month * 30) (by omega), toInt64_of (by omega)]
  have hv : (int64ToInt128 (i.time.tmod 86400000000)).val = i.time.tmod 86400000000 := by
    simp only [int64ToInt128, val, INT128.of, toInt64, toUint64]
    split_ifs <;> omega
  unfold intervalCmpEmulated intervalCmpNative exactValue usecsPerDay
  rw [native_of (val_addMul (by omega) (by omega)), hv]
  unfold toInt128
  omega

/-- The emulated operations are the native ones, and intervals compare by their
exact value with either. -/
theorem int128_emulation :
    (∀ i v, IsUint64 v → (int128AddUint64 i v).val = toInt128 (i.val + v)) ∧
    (∀ i v, IsInt64 v → (int128AddInt64 i v).val = toInt128 (i.val + v)) ∧
    (∀ i x y, IsInt64 x → IsInt64 y → (int128AddInt64MulInt64 i x y).val = toInt128 (i.val + x * y)) ∧
    (∀ x y, int128Compare x y = compare x.val y.val) ∧
    ∀ i j : Interval, Fits i → Fits j →
      int128Compare (intervalCmpEmulated i) (intervalCmpEmulated j) =
        compare (exactValue i) (exactValue j) ∧
      compare (intervalCmpNative i) (intervalCmpNative j) = compare (exactValue i) (exactValue j) := by
  refine ⟨fun i v hv => native_of (val_addUint64 hv), fun i v hv => native_of (val_addInt64 hv),
    fun i x y hx hy => native_of (val_addMul hx hy), int128Compare_eq, fun i j hi hj => ?_⟩
  obtain ⟨ei, ni⟩ := intervalCmp_values hi
  obtain ⟨ej, nj⟩ := intervalCmp_values hj
  rw [int128Compare_eq, ei, ej, ni, nj]
  exact ⟨rfl, rfl⟩

end Pg.Int128
