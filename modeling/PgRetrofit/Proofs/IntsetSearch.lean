import PgRetrofit.Proofs.IntsetOps

/-! Membership in a canonical intset, and inclusion of one in another. -/

namespace Pg.Intset

open List Nat

theorem index_lt {xs : List UInt32} (hs : xs.Pairwise (· < ·)) {i j : ℕ} {x y : UInt32}
    (hi : xs[i]? = some x) (hj : xs[j]? = some y) (h : x < y) : i < j := by
  obtain ⟨hi', rfl⟩ := List.getElem?_eq_some_iff.1 hi
  obtain ⟨hj', rfl⟩ := List.getElem?_eq_some_iff.1 hj
  by_contra hle
  rcases eq_or_lt_of_le (not_lt.1 hle) with rfl | hlt
  · exact UInt32.lt_irrefl _ h
  · exact UInt32.lt_asymm h (pairwise_iff_getElem.1 hs j i hj' hi' hlt)

theorem toNat_pred {x : UInt32} (h : x ≠ 0) : (x - 1).toNat + 1 = x.toNat := by
  have hpos : x.toNat ≠ 0 := fun h0 => h (UInt32.toNat_inj.1 h0)
  have hle : 1 ≤ x := UInt32.le_iff_toNat_le.2 (pos_of_ne_zero hpos)
  rw [UInt32.toNat_sub_of_le _ _ hle, UInt32.toNat_one, Nat.sub_add_cancel (Nat.pos_of_ne_zero hpos)]

variable {s : Intset} {a : UInt32}

/-- The window keeps every place where `a` can be, and loses an element in each round. -/
theorem containLoop_spec (hs : s.arr.Pairwise (· < ·)) (hlen : s.arr.length ≤ 2 ^ 31)
    {fuel : ℕ} {l r : UInt32} (hr : r.toNat < s.arr.length)
    (hwindow : ∀ i, s.arr[i]? = some a → l.toNat ≤ i ∧ i ≤ r.toNat)
    (hfuel : r.toNat + 1 - l.toNat < fuel) : containLoop s a fuel l r = .ok (decide (a ∈ s.arr)) := by
  induction fuel generalizing l r with
  | zero => omega
  | succ fuel ih => ?_
  rw [containLoop]
  split_ifs with hle
  · have hle := UInt32.le_iff_toNat_le.1 hle
    have hmid : ((l + r) / 2).toNat = (l.toNat + r.toNat) / 2 := by
      rw [UInt32.toNat_div, UInt32.toNat_add, mod_eq_of_lt (by omega)]; rfl
    set mid := (l + r) / 2
    have hx : s.arr[mid.toNat]? = some s.arr[mid.toNat] := getElem?_eq_getElem (by omega)
    simp only [hx]
    split_ifs with heq hlt hzero
    · rw [decide_eq_true (heq ▸ getElem_mem _)]
    · have hsucc : (mid + 1).toNat = mid.toNat + 1 := by
        rw [UInt32.toNat_add, UInt32.toNat_one, mod_eq_of_lt (by omega)]
      refine ih hr (fun i hi => ⟨?_, (hwindow i hi).2⟩) (by omega)
      rw [hsucc]
      exact index_lt hs hx hi hlt
    · -- `a` would stand before the first element
      rw [decide_eq_false]
      intro hmem
      obtain ⟨i, hi⟩ := mem_iff_getElem?.1 hmem
      have := index_lt hs hi hx (by grind)
      exact absurd this (by rw [hzero]; exact not_lt_zero i)
    · have hpred := toNat_pred hzero
      refine ih (by omega) (fun i hi => ⟨(hwindow i hi).1, ?_⟩) (by omega)
      have := index_lt hs hi hx (by grind)
      omega
  · rw [decide_eq_false]
    intro hmem
    obtain ⟨i, hi⟩ := mem_iff_getElem?.1 hmem
    have := hwindow i hi
    exact hle (UInt32.le_iff_toNat_le.2 (this.1.trans this.2))

/-- The search ends, and answers whether `a` is an element. -/
theorem intsetContain_iff (h : Canonical s) (a : UInt32) :
    intsetContain a s = .ok (decide (a ∈ s.set)) := by
  have hfits := h.fits
  have hcardi := h.cardi_eq
  unfold maxAllocSize at hfits
  rw [intsetContain, decide_eq_decide.2 (show a ∈ s.set ↔ a ∈ s.arr from List.mem_toFinset)]
  split_ifs with hzero
  · rw [hzero] at hcardi
    simp [List.length_eq_zero_iff.1 hcardi.symm]
  have hpred := toNat_pred hzero
  refine containLoop_spec h.sorted (by omega) (by omega) (fun i hi => ⟨Nat.zero_le i, ?_⟩) (by omega)
  have := (List.getElem?_eq_some_iff.1 hi).1
  omega

theorem intsetContain_iff_bounds : Canonical (ofList [0, 4294967295]) ∧
    intsetContain 4294967295 (ofList [0, 4294967295]) = .ok true ∧
      intsetContain 1 (ofList [0, 4294967295]) = .ok false :=
  have h := ofList_canonical (by decide) (by decide)
  ⟨h, intsetContain_iff h _, intsetContain_iff h _⟩

theorem supersetScan_iff {as bs : List UInt32} (ha : as.Pairwise (· < ·)) (hb : bs.Pairwise (· < ·)) :
    supersetScan as bs = true ↔ bs ⊆ as := by
  induction as, bs using supersetScan.induct with
  | case1 as => simp [supersetScan]
  | case2 x bs => simp [supersetScan]
  | case3 a as x bs hlt ih =>
    have ha' : a ∉ x :: bs := SortedMerge.not_mem_of_lt_head hb hlt
    rw [supersetScan, if_pos hlt, ih ha.of_cons hb]
    refine ⟨fun h => subset_cons_of_subset _ h, fun h y hy => (mem_cons.1 (h hy)).resolve_left ?_⟩
    rintro rfl
    exact ha' hy
  | case4 a as x bs hnlt hne =>
    have hx : x ∉ a :: as := SortedMerge.not_mem_of_lt_head ha (by grind)
    rw [supersetScan, if_neg hnlt, if_pos hne]
    exact ⟨fun h => absurd h Bool.false_ne_true, fun h => absurd (h mem_cons_self) hx⟩
  | case5 a as x bs hnlt heq ih =>
    obtain rfl := not_not.1 heq
    rw [supersetScan, if_neg hnlt, if_neg heq, ih ha hb.of_cons, cons_subset]
    exact (and_iff_right mem_cons_self).symm

variable {a b c : Intset}

theorem Canonical.ends (h : Canonical s) (hne : s.cardi ≠ 0) : ∃ x y, s.arr[0]? = some x ∧
    s.arr[(s.cardi - 1).toNat]? = some y ∧ ∀ z ∈ s.arr, ¬ z < x ∧ ¬ z > y := by
  have hpred := toNat_pred hne
  rw [h.cardi_eq] at hpred
  have h0 : s.arr[0]? = some s.arr[0] := List.getElem?_eq_getElem (by omega)
  have h1 : s.arr[(s.cardi - 1).toNat]? = some s.arr[(s.cardi - 1).toNat] :=
    List.getElem?_eq_getElem (by omega)
  refine ⟨_, _, h0, h1, fun z hz => ?_⟩
  obtain ⟨i, hi⟩ := List.mem_iff_getElem?.1 hz
  have hlt := (List.getElem?_eq_some_iff.1 hi).1
  refine ⟨fun hzx => not_lt_zero i (index_lt h.sorted hi h0 hzx), fun hyz => ?_⟩
  have := index_lt h.sorted h1 hi hyz
  omega

theorem improperSuperset_eq (ha : Canonical a) (hb : Canonical b) :
    intsetImproperSuperset a b = .ok (decide (b.set ⊆ a.set)) := by
  have hset : b.set ⊆ a.set ↔ b.arr ⊆ a.arr := by simp [Finset.subset_iff, mem_set, subset_def]
  rw [intsetImproperSuperset, decide_eq_decide.2 hset]
  split_ifs with hzero hlt
  · simp [(cardi_eq_zero hb).1 hzero]
  · rw [decide_eq_false]
    intro hsub
    have hle := (subperm_of_subset (hb.sorted.imp UInt32.ne_of_lt) hsub).length_le
    rw [UInt32.lt_iff_toNat_lt, ha.cardi_eq, hb.cardi_eq] at hlt
    omega
  obtain ⟨b0, b1, hb0, hb1, -⟩ := hb.ends hzero
  obtain ⟨a0, a1, ha0, ha1, hall⟩ := ha.ends fun h => hlt (by grind)
  simp only [hb0, ha0, hb1, ha1, ha.elems_eq, hb.elems_eq, Except.bind]
  split_ifs with hrange
  · rw [decide_eq_false]
    intro hsub
    exact hrange.elim (hall b0 (hsub (mem_of_getElem? hb0))).1 (hall b1 (hsub (mem_of_getElem? hb1))).2
  · rw [Except.ok.injEq, Bool.eq_iff_iff, supersetScan_iff ha.sorted hb.sorted, decide_eq_true_iff]

theorem intsetEqual_eq (ha : Canonical a) (hb : Canonical b) :
    intsetEqual a b = .ok (decide (a.set = b.set)) := by
  have hset : a.set = b.set ↔ a.arr = b.arr := by
    refine ⟨fun h => ?_, fun h => by rw [set, h, set]⟩
    have hperm :=
      perm_of_nodup_nodup_toFinset_eq (ha.sorted.imp UInt32.ne_of_lt) (hb.sorted.imp UInt32.ne_of_lt) h
    exact hperm.eq_of_pairwise (fun _ _ _ _ h1 h2 => absurd h2 (UInt32.lt_asymm h1)) ha.sorted hb.sorted
  rw [intsetEqual, decide_eq_decide.2 hset]
  split_ifs with hne
  · rw [decide_eq_false]
    exact fun h => hne (UInt32.toNat_inj.1 (by rw [ha.cardi_eq, hb.cardi_eq, h]))
  · rw [ha.elems_eq, hb.elems_eq]
    rfl

/-- The inclusion tests and the equality test answer for the sets; so inclusion is an order up to
equality. -/
theorem inclusion_order (ha : Canonical a) (hb : Canonical b) (hc : Canonical c) :
    intsetImproperSuperset a b = .ok (decide (b.set ⊆ a.set)) ∧
      intsetImproperSubset a b = .ok (decide (a.set ⊆ b.set)) ∧
    intsetEqual a b = .ok (decide (b.set ⊆ a.set ∧ a.set ⊆ b.set)) ∧
      intsetImproperSuperset a a = .ok true ∧
    (intsetImproperSuperset a b = .ok true → intsetImproperSuperset b c = .ok true →
      intsetImproperSuperset a c = .ok true) ∧
    (intsetImproperSuperset a b = .ok true → intsetImproperSuperset b a = .ok true →
      intsetEqual a b = .ok true) := by
  have hanti : a.set = b.set ↔ b.set ⊆ a.set ∧ a.set ⊆ b.set := by
    rw [and_comm, Finset.Subset.antisymm_iff]
  rw [intsetEqual_eq ha hb, intsetImproperSubset]
  simp only [improperSuperset_eq, ha, hb, hc, Except.ok.injEq, decide_eq_true_iff, hanti]
  exact ⟨trivial, trivial, trivial, Finset.Subset.refl _,
    fun h1 h2 => Finset.Subset.trans h2 h1, And.intro⟩

theorem inclusion_order_small : intsetImproperSuperset (ofList [1, 4, 6]) (ofList [4]) = .ok true := by
  have h1 : Canonical (ofList [1, 4, 6]) := ofList_canonical (by decide) (by decide)
  have h2 : Canonical (ofList [4]) := ofList_canonical (by decide) (by decide)
  exact (inclusion_order h1 h2 h2).1

end Pg.Intset
