import PgRetrofit.Sanity.IntsetAlloc
import PgRetrofit.Lib.SortedMerge

/-! The four set operations on canonical intsets. Counting and filling are both
driven by the same merge, so the allocation is neither too small nor too large. -/

namespace Pg.Intset

open Finset UInt32
open SortedMerge (keepIf)

instance : IsStrictTotalOrder UInt32 (· < ·) where
  trichotomous a b h1 h2 := by grind
  irrefl a := by grind
  trans a b c h1 h2 := by grind

theorem ite_add_one (p : Bool) (c : ℕ) :
    (if p then c.toUInt32 + 1 else c.toUInt32) = (if p then c + 1 else c).toUInt32 := by
  cases p <;> simp

theorem length_keepIf_append (p : Bool) (x : UInt32) (xs : List UInt32) (c : ℕ) :
    c + (keepIf p [x] ++ xs).length = (if p then c + 1 else c) + xs.length := by
  cases p
  · simp [keepIf]
  · simp [keepIf]; omega

theorem mergeCount_eq (k : Keep) (as bs : List UInt32) (c : ℕ) :
    mergeCount k as bs c.toUInt32 =
      (c + (SortedMerge.merge k.left k.right k.both as bs).length).toUInt32 := by
  induction as, bs using SortedMerge.merge.induct generalizing c with
  | case1 bs => cases h : k.right <;> simp [mergeCount, SortedMerge.merge, keepIf, h]
  | case2 as hne =>
    cases h : k.left <;> simp [mergeCount, SortedMerge.merge, keepIf, h]
  | case3 a as b bs hlt ih =>
    rw [mergeCount, if_pos hlt, SortedMerge.merge, if_pos hlt, ite_add_one, ih, length_keepIf_append]
  | case4 a as b bs hnlt hlt ih =>
    rw [mergeCount, if_neg hnlt, if_pos hlt, SortedMerge.merge, if_neg hnlt, if_pos hlt, ite_add_one, ih,
      length_keepIf_append]
  | case5 a as b bs hn1 hn2 ih =>
    rw [mergeCount, if_neg hn1, if_neg hn2, SortedMerge.merge, if_neg hn1, if_neg hn2, ite_add_one, ih,
      length_keepIf_append]

theorem fillRest_keepIf (p : Bool) (x : UInt32) (xs : List UInt32) (c : UInt32) (r : Raw) :
    fillRest (keepIf p [x] ++ xs) c r =
      if p then (r.write c.toNat x).bind fun r => fillRest xs (c + 1) r else fillRest xs c r := by
  cases p <;> rfl

theorem mergeFill_eq (k : Keep) (as bs : List UInt32) (c : UInt32) (r : Raw) :
    mergeFill k as bs c r = fillRest (SortedMerge.merge k.left k.right k.both as bs) c r := by
  induction as, bs using SortedMerge.merge.induct generalizing c r with
  | case1 bs => cases h : k.right <;> simp [mergeFill, SortedMerge.merge, keepIf, h, fillRest]
  | case2 as hne =>
    cases h : k.left <;> simp [mergeFill, SortedMerge.merge, keepIf, h, fillRest]
  | case3 a as b bs hlt ih =>
    rw [mergeFill, if_pos hlt, SortedMerge.merge, if_pos hlt, fillRest_keepIf]
    simp only [ih]
  | case4 a as b bs hnlt hlt ih =>
    rw [mergeFill, if_neg hnlt, if_pos hlt, SortedMerge.merge, if_neg hnlt, if_pos hlt, fillRest_keepIf]
    simp only [ih]
  | case5 a as b bs hn1 hn2 ih =>
    rw [mergeFill, if_neg hn1, if_neg hn2, SortedMerge.merge, if_neg hn1, if_neg hn2, fillRest_keepIf]
    simp only [ih]

def keptSet (k : Keep) (a b : Intset) : Finset UInt32 :=
  (SortedMerge.merge k.left k.right k.both a.arr b.arr).toFinset

/-- The call returns a canonical intset for `S`; a set of 1 GB or more is refused
by the allocation. -/
def Returns (x : Except Fault Intset) (S : Finset UInt32) : Prop :=
  if 8 + 4 * S.card ≤ maxAllocSize then ∃ r, x = .ok r ∧ Canonical r ∧ r.set = S
  else x = .error (.allocSize (8 + 4 * S.card))

theorem returns_ofList {xs : List UInt32} (hs : xs.Pairwise (· < ·))
    (h : 8 + 4 * xs.length ≤ maxAllocSize) :
    Returns (.ok (ofList xs)) xs.toFinset := by
  have hc : xs.toFinset.card = xs.length := List.toFinset_card_of_nodup (hs.imp fun h => by grind)
  rw [Returns, hc, if_pos h]
  exact ⟨_, rfl, ofList_canonical hs h, rfl⟩

variable {a b : Intset} (ha : Canonical a) (hb : Canonical b)
include ha hb

/-- On canonical intsets the counter does not wrap, nor does the size computed from it. -/
theorem mergeCount_canonical (k : Keep) {xs : List UInt32}
    (hxs : xs = SortedMerge.merge k.left k.right k.both a.arr b.arr) :
    mergeCount k a.arr b.arr 0 = xs.length.toUInt32 ∧ 8 + 4 * xs.length < 2 ^ 32 := by
  subst hxs
  constructor
  · have := mergeCount_eq k a.arr b.arr 0
    simpa using this
  have hlen : (SortedMerge.merge k.left k.right k.both a.arr b.arr).length ≤
      a.arr.length + b.arr.length :=
    SortedMerge.length_merge_le _ _
  have hla := ha.fits
  have hlb := hb.fits
  unfold maxAllocSize at hla hlb
  omega

theorem merge_returns (k : Keep) : Returns (merge k a b) (keptSet k a b) := by
  set xs := SortedMerge.merge k.left k.right k.both a.arr b.arr with hxs
  have hs : xs.Pairwise (· < ·) := SortedMerge.merge_sorted ha.sorted hb.sorted
  obtain ⟨hcount, hlt⟩ := mergeCount_canonical ha hb k hxs
  have hc : xs.toFinset.card = xs.length := List.toFinset_card_of_nodup (hs.imp fun h => by grind)
  rw [merge, ha.elems_eq, hb.elems_eq]
  simp only [Except.bind, hcount, mergeFill_eq, ← hxs]
  by_cases hfit : 8 + 4 * xs.length ≤ maxAllocSize
  · rw [allocIntset_ok hfit]
    simp only [fillRest_alloc (show xs.length < 2 ^ 32 by omega), finish_ok]
    exact returns_ofList hs hfit
  · rw [allocIntset_error hfit hlt]
    rw [Returns, keptSet, hc, if_neg hfit]

omit ha hb in
theorem mem_set {s : Intset} {x : UInt32} : x ∈ s.set ↔ x ∈ s.arr := List.mem_toFinset

theorem mem_keptSet {k : Keep} {x : UInt32} : x ∈ keptSet k a b ↔
    (k.left = true ∧ x ∈ a.set ∧ x ∉ b.set) ∨ (k.right = true ∧ x ∈ b.set ∧ x ∉ a.set) ∨
      (k.both = true ∧ x ∈ a.set ∧ x ∈ b.set) := by
  simp only [keptSet, List.mem_toFinset, SortedMerge.mem_merge ha.sorted hb.sorted,
    SortedMerge.Kept, mem_set]

omit hb in
theorem cardi_eq_zero : a.cardi = 0 ↔ a.arr = [] := by
  rw [← List.length_eq_zero_iff, ← ha.cardi_eq, ← UInt32.toNat_inj]
  rfl

omit hb in
theorem set_of_cardi_zero (h : a.cardi = 0) : a.set = ∅ := by
  rw [cardi_eq_zero ha] at h
  rw [set, h]; rfl

omit hb in
theorem clone_returns : Returns (cloneIntset a) a.set := by
  have := returns_ofList ha.sorted ha.fits
  rwa [← ha.eq_ofList, ← cloneIntset_ok ha] at this

omit ha hb in
theorem empty_returns : Returns emptyIntset ∅ := returns_ofList List.Pairwise.nil (by decide)

theorem union_returns : Returns (intsetUnion a b) (a.set ∪ b.set) := by
  unfold intsetUnion
  split_ifs with h1 h2
  · rw [set_of_cardi_zero ha h1]; exact clone_returns hb
  · rw [set_of_cardi_zero hb h2, union_empty]; exact clone_returns ha
  · convert merge_returns ha hb ⟨true, true, true⟩ using 1
    ext x
    simp only [mem_union, mem_keptSet ha hb]; tauto

theorem disjunct_returns : Returns (intsetDisjunct a b) (symmDiff a.set b.set) := by
  unfold intsetDisjunct
  split_ifs with h1 h2
  · rw [set_of_cardi_zero ha h1, ← bot_eq_empty, bot_symmDiff]; exact clone_returns hb
  · rw [set_of_cardi_zero hb h2, ← bot_eq_empty, symmDiff_bot]; exact clone_returns ha
  · convert merge_returns ha hb ⟨true, true, false⟩ using 1
    ext x
    simp only [mem_symmDiff, mem_keptSet ha hb, Bool.false_eq_true, false_and, or_false, true_and]

theorem intersect_returns : Returns (intsetIntersect a b) (a.set ∩ b.set) := by
  unfold intsetIntersect
  split_ifs with h
  · rcases h with h | h
    · rw [set_of_cardi_zero ha h]; exact empty_returns
    · rw [set_of_cardi_zero hb h, inter_empty]; exact empty_returns
  · convert merge_returns ha hb ⟨false, false, true⟩ using 1
    ext x
    simp only [mem_inter, mem_keptSet ha hb, Bool.false_eq_true, false_and, false_or, true_and]

theorem subtract_returns : Returns (intsetSubtract a b) (a.set \ b.set) := by
  unfold intsetSubtract
  split_ifs with h1 h2
  · rw [set_of_cardi_zero ha h1, empty_sdiff]; exact empty_returns
  · rw [set_of_cardi_zero hb h2]; exact clone_returns ha
  · convert merge_returns ha hb ⟨true, false, false⟩ using 1
    ext x
    simp only [mem_sdiff, mem_keptSet ha hb, Bool.false_eq_true, false_and, or_false, true_and]

omit hb in
theorem Returns.of_subset {x : Except Fault Intset} {S : Finset UInt32}
    (h : Returns x S) (hS : S ⊆ a.set) :
    ∃ r, x = .ok r ∧ Canonical r ∧ r.set = S := by
  have h1 : S.card ≤ a.arr.length := (card_le_card hS).trans (List.toFinset_card_le _)
  have h2 := ha.fits
  rwa [Returns, if_pos (by omega)] at h

/-- The filling pass writes each slot the counting pass reserved, and nothing else. -/
theorem fill_exact (k : Keep) {r : Raw} (hr : allocIntset (mergeCount k a.arr b.arr 0) = .ok r) :
    ∃ r', mergeFill k a.arr b.arr 0 r = .ok (r', mergeCount k a.arr b.arr 0) ∧
      r'.slots.length = (mergeCount k a.arr b.arr 0).toNat ∧ ∀ s ∈ r'.slots, s.isSome := by
  set xs := SortedMerge.merge k.left k.right k.both a.arr b.arr with hxs
  obtain ⟨hcount, hlt⟩ := mergeCount_canonical ha hb k hxs
  have hfit : 8 + 4 * xs.length ≤ maxAllocSize := by
    by_contra hc
    rw [hcount, allocIntset_error hc hlt] at hr
    exact absurd hr (by simp)
  rw [hcount, allocIntset_ok hfit] at hr
  obtain rfl := Except.ok.inj hr
  refine ⟨_, by rw [mergeFill_eq, fillRest_alloc (show xs.length < 2 ^ 32 by omega), hcount], ?_, ?_⟩
  · rw [hcount, toNat_ofNat', Nat.mod_eq_of_lt (by omega)]; simp
  · simp

/-- Each operation returns a canonical intset for its set, except that a union or
a symmetric difference of 1 GB or more is refused by `palloc`; and in each of
them the filling pass writes exactly the slots the counting pass reserved. -/
theorem setOps_returns :
    (∃ r, intsetIntersect a b = .ok r ∧ Canonical r ∧ r.set = a.set ∩ b.set) ∧
    (∃ r, intsetSubtract a b = .ok r ∧ Canonical r ∧ r.set = a.set \ b.set) ∧
    Returns (intsetUnion a b) (a.set ∪ b.set) ∧
    Returns (intsetDisjunct a b) (symmDiff a.set b.set) ∧
    ∀ k r, allocIntset (mergeCount k a.arr b.arr 0) = .ok r →
      ∃ r', mergeFill k a.arr b.arr 0 r = .ok (r', mergeCount k a.arr b.arr 0) ∧
        r'.slots.length = (mergeCount k a.arr b.arr 0).toNat ∧ ∀ s ∈ r'.slots, s.isSome :=
  ⟨(intersect_returns ha hb).of_subset ha inter_subset_left,
    (subtract_returns ha hb).of_subset ha sdiff_subset,
    union_returns ha hb, disjunct_returns ha hb, fun k _ hr => fill_exact ha hb k hr⟩

omit ha hb

theorem setOps_returns_example :
    Canonical (ofList [1, 4]) ∧ Canonical (ofList [4, 4294967295]) ∧
      Returns (intsetUnion (ofList [1, 4]) (ofList [4, 4294967295]))
      ((ofList [1, 4]).set ∪ (ofList [4, 4294967295]).set) := by
  have h1 : Canonical (ofList [1, 4]) := ofList_canonical (by decide) (by decide)
  have h2 : Canonical (ofList [4, 4294967295]) := ofList_canonical (by decide) (by decide)
  exact ⟨h1, h2, (setOps_returns h1 h2).2.2.1⟩

/-- the intset of `n` consecutive numbers from `lo` on -/
def interval (lo n : ℕ) : Intset := ofList ((List.range' lo n).map Nat.toUInt32)

theorem interval_canonical {lo n : ℕ} (h : lo + n ≤ 2 ^ 32) (hn : 8 + 4 * n ≤ maxAllocSize) :
    Canonical (interval lo n) := by
  refine ofList_canonical ?_ (by simpa using hn)
  rw [List.pairwise_map]
  refine (List.pairwise_lt_range' (s := lo) (n := n) 1 (by omega)).imp_of_mem fun {i j} hi hj hij => ?_
  rw [List.mem_range'_1] at hi hj
  rw [lt_iff_toNat_lt, toNat_ofNat', toNat_ofNat', Nat.mod_eq_of_lt (by omega),
    Nat.mod_eq_of_lt (by omega)]
  exact hij

theorem mem_interval {lo n : ℕ} (h : lo + n ≤ 2 ^ 32) {x : UInt32} :
    x ∈ (interval lo n).set ↔ lo ≤ x.toNat ∧ x.toNat < lo + n := by
  simp only [interval, ofList, set, List.mem_toFinset, List.mem_map, List.mem_range'_1]
  constructor
  · rintro ⟨i, hi, rfl⟩
    rwa [toNat_ofNat', Nat.mod_eq_of_lt (by omega)]
  · exact fun hx => ⟨x.toNat, hx, by simp⟩

theorem card_interval {lo n : ℕ} (h : Canonical (interval lo n)) : (interval lo n).set.card = n := by
  rw [set, List.toFinset_card_of_nodup (h.sorted.imp fun h => by grind)]
  simp [interval, ofList]

theorem union_intervals {n : ℕ} (h : n + n ≤ 2 ^ 32) (h1 : Canonical (interval 0 n))
    (h2 : Canonical (interval n n)) (hbig : ¬ 8 + 4 * (n + n) ≤ maxAllocSize) :
    intsetUnion (interval 0 n) (interval n n) = .error (.allocSize (8 + 4 * (n + n))) := by
  have hdis : Disjoint (interval 0 n).set (interval n n).set := by
    rw [disjoint_left]
    intro x hx hy
    rw [mem_interval (by omega)] at hx hy
    omega
  have hu := union_returns h1 h2
  rwa [Returns, card_union_of_disjoint hdis, card_interval h1, card_interval h2, if_neg hbig] at hu

/-- Two sets of half a gigabyte with no element in common have no union. -/
theorem intsetUnion_too_large :
    Canonical (interval 0 (2 ^ 27)) ∧ Canonical (interval (2 ^ 27) (2 ^ 27)) ∧
      ¬ ∃ r, intsetUnion (interval 0 (2 ^ 27)) (interval (2 ^ 27) (2 ^ 27)) = .ok r := by
  have h1 : Canonical (interval 0 (2 ^ 27)) :=
    interval_canonical (by norm_num) (by norm_num [maxAllocSize])
  have h2 : Canonical (interval (2 ^ 27) (2 ^ 27)) :=
    interval_canonical (by norm_num) (by norm_num [maxAllocSize])
  refine ⟨h1, h2, ?_⟩
  rintro ⟨r, hr⟩
  have he := union_intervals (by norm_num) h1 h2 (by norm_num [maxAllocSize])
  rw [he] at hr
  exact absurd hr (by simp)

end Pg.Intset
