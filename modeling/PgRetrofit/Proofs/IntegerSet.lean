import PgRetrofit.Proofs.Simple8b
import PgRetrofit.Sanity.IntegerSetGrow
import PgRetrofit.Sanity.IntegerSetSearch

/-! The values of an integer set, and what a call of `intset_add_member` does to them. -/

namespace Pg.IntegerSet

open Simple8b List Nat UInt64

variable {s s' : IntegerSet} {xs tv values l : List UInt64} {x : UInt64}

theorem increasing_iff : Increasing l ↔ l.Pairwise (· < ·) := by
  rw [Increasing, pairwise_map]
  exact List.Pairwise.iff fun _ _ => lt_iff_toNat_lt.symm

theorem Increasing.sublist {l' : List UInt64} (h : Increasing l) (hsub : l'.Sublist l) : Increasing l' :=
  List.Pairwise.sublist (hsub.map _) h

theorem Increasing.length_le (h : Increasing l) : l.length ≤ 2 ^ 64 := by
  have hnodup : (l.map toNat).Nodup := h.imp fun hab => hab.ne
  have hsub : l.map toNat ⊆ range (2 ^ 64) := by
    intro v hv
    obtain ⟨w, -, rfl⟩ := mem_map.1 hv
    exact mem_range.2 w.toNat_lt
  simpa only [length_map, length_range] using (hnodup.subperm hsub).length_le

def itemValues (item : LeafItem) : List UInt64 := item.first :: simple8bDecode item.codeword item.first

def treeValues (s : IntegerSet) : List UInt64 := (treeItems s).flatMap itemValues

theorem length_treeItems_le (s : IntegerSet) : (treeItems s).length ≤ (treeValues s).length := by
  rw [treeValues]
  induction treeItems s with
  | nil => exact le_rfl
  | cons item items ih =>
    rw [flatMap_cons, length_append, length_cons, itemValues, length_cons]
    omega

theorem Grown.length_leaves (h : Grown s) (hinc : Increasing (treeValues s)) :
    s.leaves.length + 1 ≤ 64 ^ 10 := by
  rcases h with h | h
  · have hlt := h.rows.length_lt (by simpa [leafRows] using h.leaves_ne)
    have hitems := length_treeItems_le s
    have hvalues := hinc.length_le
    rw [leafRows, length_map] at hlt
    change maxLeafItems * (s.leaves.length - 1) < (treeItems s).length at hlt
    rw [maxLeafItems] at hlt
    omega
  · rw [h.leaves_eq]
    norm_num

theorem flushLoop_spec (hinc : Increasing (tv ++ values)) (fuel : ℕ) (s : IntegerSet)
    (numPacked leaf : ℕ) (h : Grown s) (hvalues : treeValues s = tv ++ values.take numPacked)
    (hleaf : leaf + 1 = s.leaves.length) (hle : numPacked ≤ values.length)
    (hfuel : values.length < numPacked + fuel) :
    ∃ k s', flushLoop values fuel s numPacked leaf = .ok k s' ∧ TreeOnly s s' ∧
      treeValues s' = tv ++ values.take k ∧
      k ≤ values.length ∧ values.length < k + maxValuesPerLeafItem ∧
      (numPacked + maxValuesPerLeafItem ≤ values.length ∨ Tree s → Tree s') := by
  induction fuel generalizing s numPacked leaf with
  | zero => omega
  | succ fuel ih => ?_
  rw [flushLoop]
  by_cases hmore : values.length - numPacked ≥ maxValuesPerLeafItem
  swap
  · rw [if_neg hmore]
    exact ⟨numPacked, s, rfl, rfl, hvalues, hle, by omega, fun h => h.resolve_left (by omega)⟩
  rw [if_pos hmore]
  have hmax : maxValuesPerLeafItem = 241 := rfl
  have hlt : numPacked < values.length := by omega
  obtain ⟨pre, n, hpre⟩ : ∃ pre n, s.leaves = pre ++ [n] :=
    ⟨_, _, (dropLast_append_getLast h.leaves_ne).symm⟩
  obtain rfl : leaf = pre.length := by
    rw [hpre, length_append, length_singleton] at hleaf
    omega
  have hdrop := drop_eq_getElem_cons hlt
  have hsorted : (values[numPacked] :: values.drop (numPacked + 1)).Pairwise (· < ·) := by
    rw [← hdrop, ← increasing_iff]
    exact hinc.sublist ((drop_sublist ..).trans (sublist_append_right ..))
  obtain ⟨codeword, k, henc, hk, hdec, -⟩ := simple8bEncode_decode hsorted (by rw [length_drop]; omega)
  have hbound := h.length_leaves (hinc.sublist (by
    rw [hvalues]
    exact List.Sublist.append_left (take_sublist ..) tv))
  obtain ⟨s1, htree, hitems, honly, hstep⟩ := h.pack hpre hbound ⟨values[numPacked], codeword⟩
  have hvalues1 : treeValues s1 = tv ++ values.take (numPacked + (1 + k)) := by
    rw [treeValues, hitems, flatMap_append, ← treeValues, hvalues, take_add, append_assoc, hdrop,
      add_comm 1 k, take_succ_cons, flatMap_singleton, itemValues, hdec]
  have hget : s.leaves[pre.length]? = some n := by rw [hpre]; simp
  have hgetD : values.getD numPacked 0 = values[numPacked] := by
    rw [getD_eq_getElem?_getD, getElem?_eq_getElem hlt, Option.getD_some]
  have hnext : numPacked + (1 + k) ≤ values.length := by omega
  simp only [getElem?_eq_getElem hlt, hgetD, henc, hget]
  split at hstep
  · rename_i hfull
    obtain ⟨new, hnew, hadd, hlen1⟩ := hstep
    obtain ⟨k', s', hrun, honly', hrest⟩ :=
      ih s1 _ s.leaves.length (.inl htree) hvalues1 hlen1.symm hnext (by omega)
    refine ⟨k', s', ?_, honly.trans honly', hrest.1, hrest.2.1, hrest.2.2.1,
      fun _ => hrest.2.2.2 (.inr htree)⟩
    rw [if_pos hfull, hnew]
    dsimp only
    rw [hadd]
    exact hrun
  · rename_i hroom
    obtain ⟨k', s', hrun, honly', hrest⟩ :=
      ih s1 _ pre.length (.inl htree) hvalues1 (by omega) hnext (by omega)
    refine ⟨k', s', ?_, honly.trans honly', hrest.1, hrest.2.1, hrest.2.2.1,
      fun _ => hrest.2.2.2 (.inr htree)⟩
    rw [if_neg hroom, hstep.1]
    exact hrun

structure Empty (s : IntegerSet) : Prop where
  leaves_eq : s.leaves = []
  internals_eq : ∀ k, s.internals k = []
  root_eq : s.root = none
  rightmost_eq : s.rightmostNodes 0 = none
  leftmost_eq : s.leftmostLeaf = none

theorem Empty.treeValues_eq (h : Empty s) : treeValues s = [] := by
  rw [treeValues, treeItems, leafRows, h.leaves_eq]
  rfl

theorem Empty.firstLeaf (h : Empty s) : FirstLeaf s.firstLeaf := by
  refine ⟨?_, h.internals_eq, rfl, ?_, ?_, ?_⟩ <;> simp [IntegerSet.firstLeaf, h.leaves_eq]

/-- The set holds the values `xs`, those of the tree before those of the buffer. -/
structure Holds (s : IntegerSet) (xs : List UInt64) : Prop where
  shape : Tree s ∨ Empty s
  values_eq : treeValues s ++ s.bufferedValues = xs
  increasing : Increasing xs
  buffered_le : s.bufferedValues.length ≤ maxBufferedValues
  numEntries_eq : s.numEntries.toNat = xs.length % 2 ^ 64
  highest_eq : ∀ v ∈ xs.getLast?, s.highestValue = v
  inactive : s.iterActive = false

theorem intsetCreate_holds : Holds intsetCreate [] where
  shape := .inr ⟨rfl, fun _ => rfl, rfl, rfl, rfl⟩
  values_eq := rfl
  increasing := List.Pairwise.nil
  buffered_le := zero_le _
  numEntries_eq := rfl
  highest_eq := fun _ hv => by cases hv
  inactive := rfl

variable (h : Holds s xs)
include h

theorem Holds.flushStart :
    ∃ s0 leaf, (∀ k s', flushLoop s.bufferedValues (s.bufferedValues.length + 1) s0 0 leaf = .ok k s' →
        s.intsetFlushBufferedValues = .ok () { s' with bufferedValues := s.bufferedValues.drop k }) ∧
      Grown s0 ∧ treeValues s0 = treeValues s ∧ leaf + 1 = s0.leaves.length ∧
      s0.bufferedValues = s.bufferedValues ∧ s0.numEntries = s.numEntries ∧
      s0.highestValue = s.highestValue ∧ s0.iterActive = s.iterActive := by
  rcases h.shape with htree | hempty
  · have hpos := length_pos_of_ne_nil htree.leaves_ne
    have hright := htree.tower.rightmost 0 htree.tower.levels_pos
    change _ = some (⟨0, (leafKeys s).length - 1⟩ : NodePtr) at hright
    refine ⟨s, (leafKeys s).length - 1, fun k s' hrun => ?_, .inl htree, rfl, ?_, rfl, rfl, rfl, rfl⟩
    · rw [intsetFlushBufferedValues, hright]
      rw [hrun]
    · rw [htree.length_leafKeys]
      omega
  have hfirst := hempty.firstLeaf
  refine ⟨s.firstLeaf, s.leaves.length, fun k s' hrun => ?_, .inr hfirst, ?_, ?_, rfl, rfl, rfl, rfl⟩
  · rw [intsetFlushBufferedValues, hempty.rightmost_eq]
    rw [hrun]
  · rw [hempty.treeValues_eq, treeValues, treeItems, leafRows, hfirst.leaves_eq]
    rfl
  · rw [hfirst.leaves_eq, hempty.leaves_eq]
    rfl

/-- A flush moves values from the buffer to the tree and keeps fewer than a leaf item can take. -/
theorem Holds.flush (hfull : s.bufferedValues.length ≥ maxBufferedValues) :
    ∃ s', s.intsetFlushBufferedValues = .ok () s' ∧ Holds s' xs ∧
      s'.bufferedValues.length < maxValuesPerLeafItem := by
  have hmax : maxBufferedValues = 482 := rfl
  have hmax' : maxValuesPerLeafItem = 241 := rfl
  obtain ⟨s0, leaf, hstart, hgrown, hvalues, hleaf, hbuf, hnum, hhigh, hiter⟩ := h.flushStart
  obtain ⟨k, s', hrun, honly, hvalues', hk, hleft, htree⟩ := flushLoop_spec (h.values_eq ▸ h.increasing)
    (s.bufferedValues.length + 1) s0 0 leaf hgrown (by rw [hvalues, take_zero, append_nil]) hleaf
    (zero_le _) (by omega)
  refine ⟨{ s' with bufferedValues := s.bufferedValues.drop k }, hstart k s' hrun, ?_, ?_⟩
  · have htree' := htree (.inl (by omega))
    refine ⟨.inl (htree'.congr rfl rfl rfl rfl rfl rfl), ?_, h.increasing, ?_, ?_, ?_, ?_⟩
    · change treeValues s' ++ s.bufferedValues.drop k = xs
      rw [hvalues', append_assoc, take_append_drop, h.values_eq]
    · rw [length_drop]
      omega
    · rw [honly]
      exact hnum ▸ h.numEntries_eq
    · rw [honly]
      exact hhigh ▸ h.highest_eq
    · rw [honly]
      exact hiter ▸ h.inactive
  · rw [length_drop]
    omega

theorem Holds.buffer (hroom : s.bufferedValues.length < maxBufferedValues)
    (hx : Increasing (xs ++ [x])) :
    Holds { s with
      bufferedValues := s.bufferedValues ++ [x], numEntries := s.numEntries + 1,
        highestValue := x } (xs ++ [x]) where
  shape := by
    refine h.shape.imp (fun ht => ?_) fun he => ?_
    · exact ht.congr rfl rfl rfl rfl rfl rfl
    · exact { he with }
  values_eq := by
    rw [← h.values_eq, append_assoc]
    rfl
  increasing := hx
  buffered_le := by
    rw [length_append]
    exact hroom
  numEntries_eq := by
    rw [UInt64.toNat_add, h.numEntries_eq, length_append]
    exact mod_add_mod ..
  highest_eq := fun v hv => by
    rw [List.getLast?_concat] at hv
    exact Option.some.inj hv
  inactive := h.inactive

theorem Holds.add (hx : Increasing (xs ++ [x])) :
    ∃ s', s.intsetAddMember x = .ok () s' ∧ Holds s' (xs ++ [x]) := by
  have horder : (decide (x ≤ s.highestValue) && decide (s.numEntries > 0)) = false := by
    rcases eq_nil_or_concat xs with rfl | ⟨ys, v, rfl⟩
    · have hzero : s.numEntries = 0 := UInt64.toNat_inj.1 h.numEntries_eq
      simp [hzero]
    · have hv := h.highest_eq v (by simp)
      have hlt : v < x := (pairwise_append.1 (increasing_iff.1 hx)).2.2 v (by simp) x (by simp)
      simp [hv, hlt]
  rw [intsetAddMember, if_neg (by simp [h.inactive]), if_neg (by simp [horder])]
  by_cases hfull : s.bufferedValues.length ≥ maxBufferedValues
  · obtain ⟨s1, hflush, h1, hleft⟩ := h.flush hfull
    rw [if_pos hfull, hflush]
    exact ⟨_, rfl, h1.buffer (hleft.trans (by decide)) hx⟩
  · rw [if_neg hfull]
    exact ⟨_, rfl, h.buffer (Nat.lt_of_not_le hfull) hx⟩

theorem Holds.refuse (hlen : xs.length < 2 ^ 64) {v : UInt64} (hv : v ∈ xs.getLast?) (hx : x ≤ v) :
    s.intsetAddMember x = .error (.elog "cannot add value to integer set out of order") s := by
  have hpos : 0 < s.numEntries := by
    rw [lt_iff_toNat_lt, h.numEntries_eq, mod_eq_of_lt hlen]
    exact length_pos_of_mem (mem_of_mem_getLast? hv)
  rw [intsetAddMember, if_neg (by simp [h.inactive]), if_pos (by simp [h.highest_eq v hv, hx, hpos])]

theorem Holds.addMembers {ys : List UInt64} (hys : Increasing (xs ++ ys)) :
    ∃ s', s.addMembers ys = .ok () s' ∧ Holds s' (xs ++ ys) := by
  induction ys generalizing s xs with
  | nil => exact ⟨s, rfl, (append_nil xs).symm ▸ h⟩
  | cons y ys ih =>
    rw [append_cons] at hys ⊢
    obtain ⟨s1, hadd, h1⟩ := h.add (hys.sublist (sublist_append_left ..))
    rw [IntegerSet.addMembers, hadd]
    exact ih h1 hys

end Pg.IntegerSet
