import PgRetrofit.Sanity.IntegerSetTower

/-! Binary search on a node, and the walk from the root down to a leaf. -/

namespace Pg.IntegerSet

open List UInt64 Nat
open Prod (fst)

variable {s : IntegerSet} {ks arr : List UInt64} {x : UInt64}

theorem binsrch_spec {nextkey : Bool}
    (harr : arr.Pairwise fun a b => isBehind x nextkey b → isBehind x nextkey a) (fuel low high : ℕ)
    (hlow : low ≤ arr.countP (isBehind x nextkey)) (hhigh : arr.countP (isBehind x nextkey) ≤ high)
    (hlen : high ≤ arr.length) (hfuel : high - low ≤ fuel) :
    binsrch x arr nextkey fuel low high = .ok (arr.countP (isBehind x nextkey)) := by
  induction fuel generalizing low high with
  | zero =>
    rw [binsrch, if_neg (by omega)]
    congr 1
    omega
  | succ fuel ih => ?_
  rw [binsrch]
  by_cases hlt : high > low
  swap
  · rw [if_neg hlt]
    congr 1
    omega
  rw [if_pos hlt]
  have hget : arr[low + (high - low) / 2]? = some _ := getElem?_eq_getElem (by omega)
  obtain ⟨htake, hdrop⟩ := countP_split harr
  simp only [hget]
  -- a key is passed exactly if it is among the counted ones
  by_cases hin : low + (high - low) / 2 < arr.countP (isBehind x nextkey)
  · have hp : isBehind x nextkey arr[low + (high - low) / 2] = true := by
      refine htake _ (mem_of_getElem? (i := low + (high - low) / 2) ?_)
      rw [getElem?_take_of_lt hin, hget]
    rw [if_pos hp]
    exact ih _ _ (by omega) hhigh hlen (by omega)
  · have hp : isBehind x nextkey arr[low + (high - low) / 2] = false := by
      refine hdrop _ (mem_of_getElem? (i := low + (high - low) / 2 - arr.countP (isBehind x nextkey)) ?_)
      rw [getElem?_drop, Nat.add_sub_cancel' (by omega), hget]
    rw [if_neg (by simp [hp])]
    exact ih _ _ hlow (by omega) (by omega) (by omega)

def Increasing (l : List UInt64) : Prop := (l.map UInt64.toNat).Pairwise (· < ·)

def upTo (x : UInt64) (l : List UInt64) : ℕ := (l.map UInt64.toNat).countP (· ≤ x.toNat)

theorem upTo_eq (x : UInt64) (l : List UInt64) : upTo x l = l.countP (isBehind x true) := by
  rw [upTo, countP_map]
  refine countP_congr fun v _ => ?_
  simp [isBehind, le_iff_toNat_le]

theorem upTo_eq_zero {l : List UInt64} : upTo x l = 0 ↔ ∀ v ∈ l, x.toNat < v.toNat := by
  simp [upTo, countP_eq_zero]

theorem intsetBinsrchUint64_nextkey (harr : Increasing arr) (x : UInt64) :
    intsetBinsrchUint64 x arr true = .ok (upTo x arr) := by
  rw [upTo_eq]
  refine binsrch_spec ?_ _ _ _ (zero_le _) countP_le_length le_rfl le_rfl
  refine (pairwise_map.1 harr).imp fun {a b} hab => ?_
  simp only [isBehind, if_true, decide_eq_true_eq, ge_iff_le, le_iff_toNat_le]
  omega

theorem intsetBinsrchLeaf_nextkey {arr : List LeafItem}
    (harr : Increasing (arr.map LeafItem.first)) (x : UInt64) :
    intsetBinsrchLeaf x arr true = .ok (upTo x (arr.map LeafItem.first)) := by
  have := intsetBinsrchUint64_nextkey harr x
  rwa [intsetBinsrchUint64, length_map] at this

/-- Without `nextkey` the search finds the key itself, if it is there. -/
theorem intsetBinsrchUint64_mem (harr : Increasing arr) (x : UInt64) :
    ∃ c, intsetBinsrchUint64 x arr false = .ok c ∧ (x ∈ arr ↔ arr[c]? = some x) := by
  have hpair : arr.Pairwise fun a b => isBehind x false b → isBehind x false a := by
    refine (pairwise_map.1 harr).imp fun {a b} hab => ?_
    simp only [isBehind, Bool.false_eq_true, if_false, decide_eq_true_eq, gt_iff_lt, lt_iff_toNat_lt]
    omega
  refine ⟨_, binsrch_spec hpair _ _ _ (zero_le _) countP_le_length le_rfl le_rfl, ?_, mem_of_getElem?⟩
  intro hmem
  obtain ⟨htake, hdrop⟩ := countP_split hpair
  generalize arr.countP (isBehind x false) = c at *
  have hself : isBehind x false x = false := by simp [isBehind]
  rw [← take_append_drop c arr] at hmem harr
  rcases mem_append.1 hmem with hin | hin
  · rw [htake x hin] at hself
    cases hself
  -- the first key that is not passed is `x`: a smaller one would have been passed
  rw [Increasing, map_append, pairwise_append] at harr
  rw [← head?_drop]
  cases hrest : arr.drop c with
  | nil =>
    rw [hrest] at hin
    cases hin
  | cons w rest => ?_
  rw [hrest] at hin hdrop harr
  rcases mem_cons.1 hin with rfl | hin
  · rfl
  have hlt := (pairwise_cons.1 harr.2.1).1 _ (mem_map_of_mem hin)
  have hw := hdrop w (mem_cons_self ..)
  simp [isBehind, le_iff_toNat_le] at hw
  omega

theorem keys_flatten {k : ℕ} (h : LevelOk s ks k) :
    ((rowsAt s (k + 1)).flatten.map fun p => p.1.toNat) = (lows s ks k).map toNat := by
  rw [h.links, ← map_fst_downlinks k (lows s ks k), map_map, map_fst_downlinks]
  rfl

section Walk

variable (hks : Increasing ks) (l : ℕ)
include hks l

theorem lows_increasing (h : ∀ k < l, LevelOk s ks k) : Increasing (lows s ks l) := by
  induction l with
  | zero => exact hks
  | succ l ih =>
    have hl := ih fun k hk => h k (lt_succ_of_lt hk)
    have hsub := heads_sublist (fun p : UInt64 × NodePtr => p.1.toNat) (rowsAt s (l + 1))
    rw [keys_flatten (h l (lt_succ_self l)), heads_map toNat fst] at hsub
    exact hl.sublist hsub

theorem keys_pairwise (h : ∀ k < l + 1, LevelOk s ks k) :
    ((rowsAt s (l + 1)).flatten.map fun p => p.1.toNat).Pairwise (· < ·) := by
  rw [keys_flatten (h l (lt_succ_self l))]
  exact lows_increasing hks l fun k hk => h k (lt_succ_of_lt hk)

variable {n : InternalNode}

theorem items_increasing (h : ∀ k < l + 1, LevelOk s ks k)
    (hsub : n.items.Sublist (rowsAt s (l + 1)).flatten) : Increasing (n.items.map fst) := by
  rw [Increasing, map_map]
  exact (keys_pairwise hks l h).sublist (hsub.map _)

/-- From the last node of a level whose low key is not beyond `x` the walk goes to the last
such leaf. -/
theorem walkDown_spec (h : ∀ k < l, LevelOk s ks k) (x : UInt64) (j : ℕ)
    (hj : upTo x (lows s ks l) = j + 1) :
    ∃ j0, walkDown s x l ⟨l, j⟩ = .ok (some ⟨0, j0⟩) ∧ upTo x ks = j0 + 1 := by
  induction l generalizing j with
  | zero => exact ⟨j, rfl, hj⟩
  | succ l ih => ?_
  have hok := h l (lt_succ_self l)
  obtain ⟨r, c, p, hr, hc, hget, hflatget, hcount⟩ := hok.rows.search _ (keys_pairwise hks l h) (by
      rw [heads_map toNat fst]
      exact hj)
  obtain ⟨n, hn, rfl⟩ : ∃ n, (s.internals (l + 1))[j]? = some n ∧ n.items = r := by
    simpa [rowsAt] using hr
  have hitems : Increasing (n.items.map fst) :=
    items_increasing hks l h (sublist_flatten_of_mem (mem_of_getElem? hr))
  have hup : upTo x (n.items.map fst) = c + 1 := by
    rw [upTo, map_map]
    exact hc
  -- the downlink leads to the node of that number on the level below
  obtain ⟨key, rfl⟩ : ∃ key, (key, ⟨l, maxInternalItems * j + c⟩) = p := by
    rw [hok.links, downlinks, getElem?_mapIdx] at hflatget
    obtain ⟨key, -, hp⟩ := Option.map_eq_some_iff.1 hflatget
    exact ⟨key, hp⟩
  rw [keys_flatten hok] at hcount
  obtain ⟨j0, hwalk, hj0⟩ := ih (fun k hk => h k (lt_succ_of_lt hk)) _ hcount
  refine ⟨j0, ?_, hj0⟩
  rw [walkDown, hn]
  simp only [intsetBinsrchUint64_nextkey hitems, hup, Except.bind, Nat.add_sub_cancel, hget]
  exact hwalk

/-- On every level some node starts up to a given leaf key. -/
theorem exists_low_le (h : ∀ k < l, LevelOk s ks k) {v : UInt64} (hv : v ∈ ks) :
    ∃ w ∈ lows s ks l, w.toNat ≤ v.toNat := by
  induction l with
  | zero => exact ⟨v, hv, le_rfl⟩
  | succ l ih => ?_
  obtain ⟨w, hw, hwv⟩ := ih fun k hk => h k (lt_succ_of_lt hk)
  have hmem : w.toNat ∈ (rowsAt s (l + 1)).flatten.map fun p => p.1.toNat := by
    rw [keys_flatten (h l (lt_succ_self l))]
    exact mem_map_of_mem hw
  obtain ⟨p, hp, hpw⟩ := mem_map.1 hmem
  obtain ⟨u, hu, hup⟩ := exists_head_image_le fst toNat (keys_pairwise hks l h) hp
  exact ⟨u, hu, (hup.trans hpw.le).trans hwv⟩

/-- If every node of a level starts beyond `x`, the walk ends there. -/
theorem walkDown_none (h : ∀ k < l + 1, LevelOk s ks k) (x : UInt64)
    (hx : upTo x (lows s ks (l + 1)) = 0) {j : ℕ} (hn : (s.internals (l + 1))[j]? = some n) :
    walkDown s x (l + 1) ⟨l + 1, j⟩ = .ok none := by
  have hsub : n.items.Sublist (rowsAt s (l + 1)).flatten :=
    sublist_flatten_of_mem (mem_map_of_mem (mem_of_getElem? hn))
  have hitems : Increasing (n.items.map fst) := items_increasing hks l h hsub
  have hzero : upTo x (n.items.map fst) = 0 := by
    refine upTo_eq_zero.2 fun v hv => ?_
    obtain ⟨p, hp, rfl⟩ := mem_map.1 hv
    obtain ⟨w, hw, hle⟩ := exists_head_image_le fst toNat (keys_pairwise hks l h) (hsub.subset hp)
    exact (upTo_eq_zero.1 hx w hw).trans_le hle
  rw [walkDown, hn]
  simp only [intsetBinsrchUint64_nextkey hitems, hzero, Except.bind]
  rfl

end Walk

end Pg.IntegerSet
