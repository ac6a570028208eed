import PgRetrofit.Spec.Intset
import PgRetrofit.Proofs.Qsort
import Mathlib.Data.List.Destutter

/-! Sorting and deduplicating the buffer of `intset_in`: where the comparison by
32-bit subtraction is an order, and what the in-place loop leaves. -/

namespace Pg.Intset

open List
open Shuffle (window)

/-- The comparison is the distance from `y` up to `x` around the 32-bit circle, read
as a signed number. -/
theorem eintsetCmp_eq (x y : UInt32) : eintsetCmp x y = ((x.toNat : ℤ) - y.toNat).bmod (2 ^ 32) := by
  have h : ((x - y).toBitVec.toNat : ℤ) = ((x.toNat : ℤ) - y.toNat) % 2 ^ 32 := by
    have hy := y.toNat_lt
    rw [UInt32.toNat_toBitVec, UInt32.toNat_sub]
    omega
  rw [eintsetCmp, BitVec.toInt_eq_toNat_bmod, h]
  exact Int.emod_bmod ..

theorem eintsetCmp_near {x y : UInt32} (h1 : x.toNat < y.toNat + 2 ^ 31)
    (h2 : y.toNat < x.toNat + 2 ^ 31) :
    eintsetCmp x y = (x.toNat : ℤ) - y.toNat := by
  rw [eintsetCmp_eq, Int.bmod_def]
  split_ifs <;> omega

variable (m : Mem UInt32)

theorem window_succ (a n : ℕ) : window m a (n + 1) = m.get a :: window m (a + 1) n := by
  simp [window, range'_succ]

theorem window_succ_last (n : ℕ) : window m 0 (n + 1) = window m 0 n ++ [m.get n] := by
  simp [window, range'_concat]

theorem window_congr {m m' : Mem UInt32} {a n : ℕ} (h : ∀ i, a ≤ i → i < a + n → m'.get i = m.get i) :
    window m' a n = window m a n := by
  refine map_congr_left fun i hi => ?_
  rw [mem_range'_1] at hi
  exact h i hi.1 hi.2

/-- The loop keeps, behind the `c` cells done before `last`, one of each run of equal
values; it never overwrites a cell it has still to read. -/
theorem dedupLoop_window (k : ℕ) (m : Mem UInt32) (i c : ℕ) (hc : c < i) :
    window (dedupLoop k m i (c + 1) (m.get c)).1 0 (dedupLoop k m i (c + 1) (m.get c)).2 =
      window m 0 c ++ (window m i k).destutter' (· ≠ ·) (m.get c) := by
  induction k generalizing m i c with
  | zero => rw [dedupLoop, window_succ_last]; rfl
  | succ k ih => ?_
  rw [dedupLoop, window_succ]
  by_cases h : m.get i = m.get c
  · rw [if_pos h, ih m (i + 1) c (by omega), destutter'_cons_neg _ (not_not.2 h.symm)]
  have hset : ∀ j, j ≠ c + 1 → (m.set (c + 1) (m.get i)).get j = m.get j := fun j hj => if_neg hj
  have hnew : (m.set (c + 1) (m.get i)).get (c + 1) = m.get i := if_pos rfl
  have hi : (m.set (c + 1) (m.get i)).get i = (m.set (c + 1) (m.get i)).get (c + 1) := by
    rw [hnew]
    rcases eq_or_ne i (c + 1) with rfl | hne
    · exact hnew
    · exact hset i hne
  rw [if_neg h, destutter'_cons_pos _ (Ne.symm h)]
  simp only
  rw [hi, ih _ (i + 1) (c + 1) (by omega), hnew, window_succ_last, hset c (by omega),
    window_congr fun j _ hj => hset j (by omega), window_congr fun j hj _ => hset j (by omega),
    append_assoc, singleton_append]

theorem dedupLoop_all (n : ℕ) :
    window (dedupLoop n m 1 1 (m.get 0)).1 0 (dedupLoop n m 1 1 (m.get 0)).2 =
      (window m 0 (n + 1)).destutter (· ≠ ·) := by
  rw [dedupLoop_window n m 1 0 Nat.zero_lt_one, window_succ]
  rfl

theorem mem_destutter'_ne {a x : UInt32} (l : List UInt32) :
    x ∈ l.destutter' (· ≠ ·) a ↔ x = a ∨ x ∈ l := by
  induction l generalizing a with
  | nil => simp
  | cons b l ih =>
    by_cases h : a = b
    · rw [destutter'_cons_neg _ (not_not.2 h), ih, mem_cons, h]
      tauto
    · rw [destutter'_cons_pos _ h, mem_cons, ih, mem_cons]

theorem mem_destutter_ne {x : UInt32} (l : List UInt32) : x ∈ l.destutter (· ≠ ·) ↔ x ∈ l := by
  cases l with
  | nil => simp
  | cons a l => rw [destutter_cons', mem_destutter'_ne, mem_cons]

theorem destutter_sorted {l : List UInt32} (h : l.Pairwise (· ≤ ·)) :
    (l.destutter (· ≠ ·)).Pairwise (· < ·) := by
  have hle : (l.destutter (· ≠ ·)).Pairwise (· ≤ ·) := h.sublist (destutter_sublist (· ≠ ·) l)
  have hne : (l.destutter (· ≠ ·)).IsChain (· ≠ ·) := isChain_destutter (· ≠ ·) l
  refine isChain_iff_pairwise.1 (isChain_iff_getElem.2 fun i hi => ?_)
  exact UInt32.lt_of_le_of_ne (isChain_iff_getElem.1 hle.isChain i hi) (isChain_iff_getElem.1 hne i hi)

end Pg.Intset
