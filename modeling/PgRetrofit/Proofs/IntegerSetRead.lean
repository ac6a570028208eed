import PgRetrofit.Proofs.IntegerSet

/-! What `intset_is_member` finds. -/

namespace Pg.IntegerSet

open Simple8b List UInt64

variable {s : IntegerSet} {xs : List UInt64} {x : UInt64}

theorem heads_itemValues (items : List LeafItem) :
    heads toNat (items.map itemValues) = (items.map LeafItem.first).map toNat := by
  induction items with
  | nil => rfl
  | cons item items ih => exact congrArg (item.first.toNat :: ·) ih

section Items

variable {items : List LeafItem} {item : LeafItem} (hinc : Increasing (items.flatMap itemValues))
include hinc

theorem firsts_increasing : Increasing (items.map LeafItem.first) := by
  have hsub := heads_sublist toNat (items.map itemValues)
  rw [heads_itemValues] at hsub
  exact List.Pairwise.sublist hsub hinc

theorem firstKeys_pairwise : (items.map fun item => item.first.toNat).Pairwise (· < ·) := by
  have hfirsts := firsts_increasing hinc
  rwa [Increasing, map_map] at hfirsts

theorem exists_first_le (hx : x ∈ items.flatMap itemValues) :
    ∃ item ∈ items, item.first.toNat ≤ x.toNat := by
  obtain ⟨w, hw, hle⟩ := exists_head_le hinc (mem_map_of_mem (flatMap_def ▸ hx))
  rw [heads_itemValues, map_map] at hw
  obtain ⟨item, hitem, rfl⟩ := mem_map.1 hw
  exact ⟨item, hitem, hle⟩

/-- Only the last item that starts up to `x` can have it. -/
theorem mem_item {c : ℕ} (hget : items[c]? = some item)
    (hcount : upTo x (items.map LeafItem.first) = c + 1) :
    item.first.toNat ≤ x.toNat ∧ (x ∈ items.flatMap itemValues ↔ x ∈ itemValues item) := by
  obtain ⟨hlt, rfl⟩ := List.getElem?_eq_some_iff.1 hget
  obtain ⟨pre, item, post, rfl, rfl, hitem⟩ :
    ∃ pre item post, items = pre ++ item :: post ∧ pre.length = c ∧ items[c] = item :=
    ⟨items.take c, items[c], items.drop (c + 1), by rw [← drop_eq_getElem_cons hlt, take_append_drop],
      by rw [length_take]; omega, rfl⟩
  rw [hitem]
  obtain ⟨hle, hgt⟩ := countP_le_split (firsts_increasing hinc) x.toNat
  rw [← upTo, hcount, map_append, map_append] at hle hgt
  have hfirst : item.first.toNat ≤ x.toNat := hle _ (by rw [take_append]; simp)
  have hpost : ∀ item' ∈ post, x.toNat < item'.first.toNat := fun item' h => hgt _ (by
    rw [drop_append]
    simp only [length_map, Nat.add_sub_cancel_left, map_cons, drop_succ_cons, drop_zero]
    exact mem_append_right _ (mem_map_of_mem (mem_map_of_mem h)))
  rw [flatMap_append] at hinc ⊢
  have hpair := increasing_iff.1 hinc
  refine ⟨hfirst, fun hx => ?_, fun hx => mem_append_right _ (mem_append_left _ hx)⟩
  rcases mem_append.1 hx with hx | hx
  · have hlt := (pairwise_append.1 hpair).2.2 x hx item.first (mem_append_left _ (mem_cons_self ..))
    rw [lt_iff_toNat_lt] at hlt
    omega
  rcases mem_append.1 hx with hx | hx
  · exact hx
  obtain ⟨item', hmem, hle'⟩ := exists_first_le
    (hinc.sublist ((sublist_append_right ..).trans (sublist_append_right ..))) hx
  have := hpost item' hmem
  omega

end Items

theorem itemContains_eq {item : LeafItem} (hinc : Increasing (itemValues item))
    (hle : item.first.toNat ≤ x.toNat) :
    (decide (item.first = x) || simple8bContains item.codeword x item.first) =
      decide (x ∈ itemValues item) := by
  rw [itemValues]
  by_cases heq : item.first = x
  · simp [heq]
  have hlt : item.first < x := by
    have hne : item.first.toNat ≠ x.toNat := fun h => heq (UInt64.toNat_inj.1 h)
    rw [lt_iff_toNat_lt]
    omega
  rw [simple8bContains_eq (pairwise_cons.1 (increasing_iff.1 hinc)).2 hlt]
  simp [heq, Ne.symm heq]

section Tree

theorem leafKeys_increasing (hinc : Increasing (treeValues s)) : Increasing (leafKeys s) := by
  have hsub := heads_sublist (fun item : LeafItem => item.first.toNat) (leafRows s)
  rw [heads_map toNat LeafItem.first] at hsub
  exact List.Pairwise.sublist hsub (firstKeys_pairwise hinc)

theorem not_mem_of_upTo (hinc : Increasing (treeValues s)) (hx : upTo x (leafKeys s) = 0) :
    x ∉ treeValues s := by
  intro hmem
  obtain ⟨item, hitem, hle⟩ := exists_first_le hinc hmem
  obtain ⟨w, hw, hle'⟩ := exists_head_image_le LeafItem.first toNat (firstKeys_pairwise hinc) hitem
  exact absurd ((upTo_eq_zero.1 hx w hw).trans_le (hle'.trans hle)) (lt_irrefl _)

variable (h : Tree s) (hinc : Increasing (treeValues s))
include h hinc

theorem Tree.leafContains_eq {j : ℕ} (hj : upTo x (leafKeys s) = j + 1) (k : ℕ) :
    s.leafContains x ⟨k, j⟩ = .ok (decide (x ∈ treeValues s)) := by
  obtain ⟨r, c, item, hr, hc, hget, hflatget, hcount⟩ :=
    h.rows.search _ (firstKeys_pairwise hinc) (x := x.toNat) (j := j) (by
      rw [heads_map toNat LeafItem.first]
      exact hj)
  obtain ⟨leaf, hleaf, rfl⟩ : ∃ leaf, s.leaves[j]? = some leaf ∧ leaf.items = r := by
    simpa [leafRows] using hr
  have hsub : leaf.items.Sublist (treeItems s) := sublist_flatten_of_mem (mem_of_getElem? hr)
  have hitems : Increasing (leaf.items.map LeafItem.first) :=
    (firsts_increasing hinc).sublist (hsub.map _)
  have hup : upTo x (leaf.items.map LeafItem.first) = c + 1 := by
    rw [upTo, map_map]
    exact hc
  obtain ⟨hle, hmem⟩ := mem_item hinc hflatget (by
    rw [upTo, map_map]
    exact hcount)
  have hitem : Increasing (itemValues item) :=
    hinc.sublist (sublist_flatten_of_mem (mem_map_of_mem (mem_of_getElem? hflatget)))
  rw [leafContains, hleaf]
  simp only [intsetBinsrchLeaf_nextkey hitems, hup, Except.bind, Nat.add_sub_cancel, hget]
  rw [if_neg (Nat.succ_ne_zero c), itemContains_eq hitem hle]
  congr 2
  exact propext hmem.symm

theorem Tree.leafContains_false (hx : upTo x (leafKeys s) = 0) (k : ℕ) :
    s.leafContains x ⟨k, 0⟩ = .ok false := by
  have hpos := length_pos_of_ne_nil h.leaves_ne
  have hleaf := getElem?_eq_getElem hpos
  have hsub : s.leaves[0].items.Sublist (treeItems s) :=
    sublist_flatten_of_mem (mem_map_of_mem (getElem_mem hpos))
  have hzero : upTo x (s.leaves[0].items.map LeafItem.first) = 0 := by
    refine upTo_eq_zero.2 fun v hv => ?_
    obtain ⟨item, hitem, rfl⟩ := mem_map.1 hv
    obtain ⟨w, hw, hle⟩ :=
      exists_head_image_le LeafItem.first toNat (firstKeys_pairwise hinc) (hsub.subset hitem)
    exact (upTo_eq_zero.1 hx w hw).trans_le hle
  rw [leafContains, hleaf]
  simp only [intsetBinsrchLeaf_nextkey ((firsts_increasing hinc).sublist (hsub.map _)),
    hzero, Except.bind]
  rfl

theorem Tree.search (x : UInt64) : ((s.walkDown x (s.numLevels - 1) ⟨s.numLevels - 1, 0⟩).bind fun
      | none => .ok false
      | some node => s.leafContains x node) = .ok (decide (x ∈ treeValues s)) := by
  have ht := h.tower
  have hks := leafKeys_increasing hinc
  have hlevels : ∀ k < s.numLevels - 1, LevelOk s (leafKeys s) k := fun k hk => ht.level k (by omega)
  have hle : upTo x (lows s (leafKeys s) (s.numLevels - 1)) ≤ 1 := by
    refine countP_le_length.trans ?_
    rw [length_map, ht.root_single]
  rcases Nat.le_one_iff_eq_zero_or_eq_one.1 hle with hzero | hone
  · -- `x` is below the whole tree: the walk ends at the root, or the only leaf has no item for it
    have hnone : upTo x (leafKeys s) = 0 := by
      refine upTo_eq_zero.2 fun v hv => ?_
      obtain ⟨w, hw, hwv⟩ := exists_low_le hks _ hlevels hv
      exact (upTo_eq_zero.1 hzero w hw).trans_le hwv
    rw [decide_eq_false (not_mem_of_upTo hinc hnone)]
    have hlen := ht.root_single
    generalize s.numLevels - 1 = top at hlen hlevels hzero
    cases top with
    | zero => exact h.leafContains_false hinc hnone 0
    | succ top => ?_
    rw [lows, length_heads _ (hlevels top (Nat.lt_succ_self top)).rows.ne_nil, rowsAt, length_map]
      at hlen
    obtain ⟨n, hn⟩ := length_eq_one_iff.1 hlen
    have hget : (s.internals (top + 1))[0]? = some n := by rw [hn]; rfl
    rw [walkDown_none hks top hlevels x hzero hget]
    rfl
  · obtain ⟨j, hwalk, hj⟩ := walkDown_spec hks _ hlevels x 0 hone
    rw [hwalk]
    exact h.leafContains_eq hinc hj 0

end Tree

theorem Holds.isMember (h : Holds s xs) (x : UInt64) : s.intsetIsMember x = .ok (decide (x ∈ xs)) := by
  have hinc := h.increasing
  rw [← h.values_eq] at hinc
  have hpair := pairwise_append.1 (increasing_iff.1 hinc)
  have hsplit : x ∈ xs ↔ x ∈ treeValues s ∨ x ∈ s.bufferedValues := by rw [← h.values_eq, mem_append]
  by_cases hfront : s.bufferedValues.length > 0 && x ≥ s.bufferedValues.getD 0 0
  · -- in the buffer or nowhere
    rw [intsetIsMember, if_pos hfront]
    simp only [Bool.and_eq_true, decide_eq_true_eq] at hfront
    have hnot : x ∉ treeValues s := by
      intro hx
      have hlt := hpair.2.2 x hx _ (getElem_mem hfront.1)
      rw [getD_eq_getElem?_getD, getElem?_eq_getElem hfront.1] at hfront
      exact absurd hfront.2 (UInt64.not_le.2 hlt)
    obtain ⟨c, hc, hmem⟩ := intsetBinsrchUint64_mem (hinc.sublist (sublist_append_right ..)) x
    have hdec : decide (x ∈ xs) = decide (s.bufferedValues[c]? = some x) :=
      decide_eq_decide.2 ((hsplit.trans (or_iff_right hnot)).trans hmem)
    rw [hc, hdec, Except.bind]
    split
    · rename_i hge
      simp [getElem?_eq_none hge]
    · rename_i hlt
      simp [getElem?_eq_getElem (Nat.lt_of_not_le hlt)]
  -- in the tree or nowhere
  rw [intsetIsMember, if_neg hfront]
  have hnot : x ∉ s.bufferedValues := by
    intro hx
    cases hbuf : s.bufferedValues with
    | nil =>
      rw [hbuf] at hx
      cases hx
    | cons b rest => ?_
    rw [hbuf] at hx hfront
    have hbx : ¬ b ≤ x := by simpa using hfront
    rcases mem_cons.1 hx with rfl | hx
    · exact hbx (UInt64.le_refl x)
    · have hlt := (pairwise_cons.1 (hbuf ▸ hpair.2.1)).1 x hx
      exact hbx (UInt64.le_of_lt hlt)
  have hdec : decide (x ∈ xs) = decide (x ∈ treeValues s) :=
    decide_eq_decide.2 (hsplit.trans (or_iff_left hnot))
  rw [hdec]
  rcases h.shape with htree | hempty
  · rw [htree.tower.root_eq]
    exact htree.search (hinc.sublist (sublist_append_left ..)) x
  · rw [hempty.root_eq, hempty.treeValues_eq]
    rfl

end Pg.IntegerSet
