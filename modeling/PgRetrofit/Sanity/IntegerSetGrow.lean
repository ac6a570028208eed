import PgRetrofit.Sanity.IntegerSetTower

/-! Items that are added to the rightmost leaf, with a new leaf where it is full. -/

namespace Pg.IntegerSet

open List Nat Option Function

variable {s s' : IntegerSet} {ks : List UInt64}

def leafRows (s : IntegerSet) : List (List LeafItem) := s.leaves.map LeafNode.items

def leafKeys (s : IntegerSet) : List UInt64 := heads LeafItem.first (leafRows s)

def Linked (leaves : List LeafNode) : Prop :=
  ∀ i leaf, leaves[i]? = some leaf → leaf.next = if i + 1 < leaves.length then some (i + 1) else none

structure Tree (s : IntegerSet) : Prop where
  rows : Rows maxLeafItems (leafRows s)
  leaves_ne : s.leaves ≠ []
  linked : Linked s.leaves
  leftmost_eq : s.leftmostLeaf = some 0
  tower : Tower s (leafKeys s)

structure FirstLeaf (s : IntegerSet) : Prop where
  leaves_eq : s.leaves = [⟨[], none⟩]
  internals_eq : ∀ k, s.internals k = []
  numLevels_eq : s.numLevels = 1
  root_eq : s.root = some ⟨0, 0⟩
  rightmost_eq : s.rightmostNodes 0 = some ⟨0, 0⟩
  leftmost_eq : s.leftmostLeaf = some 0

/-- `s'` differs from `s` in its tree only. -/
def TreeOnly (s s' : IntegerSet) : Prop :=
  s' = { s with
    leaves := s'.leaves, internals := s'.internals, rightmostNodes := s'.rightmostNodes, root := s'.root
    numLevels := s'.numLevels }

theorem TreeOnly.trans {s1 s2 s3 : IntegerSet} (h : TreeOnly s1 s2) (h' : TreeOnly s2 s3) :
    TreeOnly s1 s3 := by
  unfold TreeOnly at *
  rw [h', h]

theorem UpperOnly.treeOnly (h : UpperOnly s s') : TreeOnly s s' := by
  unfold TreeOnly
  rw [h]

theorem Tower.congr (h : Tower s ks) (hi : s'.internals = s.internals) (hn : s'.numLevels = s.numLevels)
    (hr : s'.root = s.root) (hm : s'.rightmostNodes = s.rightmostNodes) : Tower s' ks := by
  have hrows : rowsAt s' = rowsAt s := by
    funext k
    rw [rowsAt, rowsAt, hi]
  have hlows : lows s' ks = lows s ks := by
    funext k
    cases k with
    | zero => rfl
    | succ k => rw [lows, lows, hrows]
  refine ⟨hn ▸ h.levels_pos, hn ▸ h.levels_le, fun k hk => ?_, fun k hk => ?_, ?_, ?_, fun k hk => ?_⟩
  · obtain ⟨h1, h2⟩ := h.level k (hn ▸ hk)
    exact ⟨hrows ▸ h1, by rw [hrows, hlows, h2]⟩
  · rw [hi]
    exact h.above k (hn ▸ hk)
  · rw [hr, hn, h.root_eq]
  · rw [hlows, hn, h.root_single]
  · rw [hm, hlows]
    exact h.rightmost k (hn ▸ hk)

theorem Tree.congr (h : Tree s) (hl : s'.leaves = s.leaves) (hf : s'.leftmostLeaf = s.leftmostLeaf)
    (hi : s'.internals = s.internals) (hn : s'.numLevels = s.numLevels) (hr : s'.root = s.root)
    (hm : s'.rightmostNodes = s.rightmostNodes) : Tree s' := by
  have hrows : leafRows s' = leafRows s := by rw [leafRows, leafRows, hl]
  have hkeys : leafKeys s' = leafKeys s := by rw [leafKeys, leafKeys, hrows]
  refine ⟨hrows ▸ h.rows, hl ▸ h.leaves_ne, hl ▸ h.linked, hf ▸ h.leftmost_eq, ?_⟩
  rw [hkeys]
  exact h.tower.congr hi hn hr hm

theorem Tree.length_leafKeys (h : Tree s) : (leafKeys s).length = s.leaves.length := by
  rw [leafKeys, length_heads _ h.rows.ne_nil, leafRows, length_map]

theorem Linked.congr {leaves leaves' : List LeafNode} (h : Linked leaves)
    (hnext : leaves'.map LeafNode.next = leaves.map LeafNode.next) : Linked leaves' := by
  have hlen : leaves'.length = leaves.length := by simpa using congrArg length hnext
  intro i leaf' hleaf'
  have hget := congrArg (fun l => l[i]?) hnext
  simp only [getElem?_map, hleaf', map_some] at hget
  obtain ⟨leaf, hleaf, hsame⟩ := map_eq_some_iff.1 hget.symm
  rw [← hsame, hlen]
  exact h i leaf hleaf

variable {pre : List LeafNode} {n : LeafNode}

/-- the leaves with a new one after `n` -/
abbrev chained (pre : List LeafNode) (n : LeafNode) (items : List LeafItem) : List LeafNode :=
  pre ++ [{ n with next := some (pre.length + 1) }] ++ [⟨items, none⟩]

theorem Linked.newLeaf (h : Linked (pre ++ [n])) (items : List LeafItem) :
    Linked (chained pre n items) := by
  intro i leaf hleaf
  rw [chained] at hleaf
  simp only [length_append, length_singleton]
  rcases lt_trichotomy i pre.length with hlt | rfl | hgt
  · rw [append_assoc, getElem?_append_left hlt] at hleaf
    have := h i leaf (by rwa [getElem?_append_left hlt])
    rw [length_append, length_singleton, if_pos (by omega)] at this
    rw [this, if_pos (by omega)]
  · rw [append_assoc, getElem?_append_right le_rfl, Nat.sub_self] at hleaf
    obtain rfl := some.inj hleaf
    rw [if_pos (by omega)]
  rw [append_assoc, getElem?_append_right hgt.le] at hleaf
  obtain ⟨hi, rfl⟩ := List.getElem?_eq_some_iff.1 hleaf
  simp only [singleton_append, length_cons, length_nil] at hi
  have : i - pre.length = 1 := by omega
  rw [if_neg (by omega)]
  simp [this]

def treeItems (s : IntegerSet) : List LeafItem := (leafRows s).flatten

/-- What the loop needs of the tree: it has an item, or is the first leaf. -/
def Grown (s : IntegerSet) : Prop := Tree s ∨ FirstLeaf s

theorem Grown.leaves_ne (h : Grown s) : s.leaves ≠ [] := by
  rcases h with h | h
  · exact h.leaves_ne
  · rw [h.leaves_eq]
    exact cons_ne_nil _ _

theorem addItem_last (hleaves : s.leaves = pre ++ [n]) (item : LeafItem) :
    s.addItem pre.length item =
      .ok () { s with leaves := pre ++ [{ n with items := n.items ++ [item] }] } := by
  rw [addItem, hleaves]
  simp [set_append_right]

theorem leafRows_concat (hleaves : s.leaves = pre ++ [n]) :
    leafRows s = pre.map LeafNode.items ++ [n.items] := by
  rw [leafRows, hleaves, map_append]
  rfl

theorem FirstLeaf.addItem (h : FirstLeaf s) (item : LeafItem) :
    Tree { s with leaves := [⟨[item], none⟩] } := by
  refine ⟨Rows.single (by decide) item, cons_ne_nil _ _, ?_, h.leftmost_eq, ?_⟩
  · intro i leaf hleaf
    cases i with
    | zero =>
      obtain rfl := some.inj hleaf
      rfl
    | succ i => cases hleaf
  refine ⟨?_, ?_, fun k hk => ?_, fun k _ => h.internals_eq k, ?_, ?_, fun k hk => ?_⟩
  · exact h.numLevels_eq ▸ one_pos
  · exact h.numLevels_eq ▸ by decide
  · exact absurd (h.numLevels_eq ▸ hk : k + 1 < 1) (by omega)
  · exact h.numLevels_eq.symm ▸ h.root_eq
  · exact h.numLevels_eq.symm ▸ rfl
  · obtain rfl : k = 0 := by
      have : k < 1 := h.numLevels_eq ▸ hk
      omega
    exact h.rightmost_eq

theorem Tree.addItem (h : Tree s) (hleaves : s.leaves = pre ++ [n])
    (hroom : n.items.length < maxLeafItems) (item : LeafItem) :
    Tree { s with leaves := pre ++ [{ n with items := n.items ++ [item] }] } := by
  have hrows := leafRows_concat hleaves
  set s' : IntegerSet := { s with leaves := pre ++ [{ n with items := n.items ++ [item] }] } with hs'
  have hrows' : leafRows s' = pre.map LeafNode.items ++ [n.items ++ [item]] := by
    rw [leafRows_concat rfl]
  have hkeys : leafKeys s' = leafKeys s := by
    have hne : n.items ≠ [] := h.rows.ne_nil _ (by simp [hrows])
    rw [leafKeys, leafKeys, hrows, hrows', heads_addLast _ _ hne]
  refine ⟨?_, by simp [hs'], ?_, h.leftmost_eq, ?_⟩
  · rw [hrows']
    exact (hrows ▸ h.rows).addLast hroom item
  · exact h.linked.congr (by simp [hs', hleaves])
  · rw [hkeys]
    exact h.tower.congr rfl rfl rfl rfl

/-- A new leaf behind a full one leaves its own downlink pending. -/
theorem Tree.pending (h : Tree s) (key : UInt64) (leaves : List LeafNode) : Pending { s with
      leaves := leaves
      rightmostNodes := update s.rightmostNodes 0 (some ⟨0, s.leaves.length⟩) }
      (leafKeys s ++ [key]) 0 (leafKeys s) key := by
  have hlen := h.length_leafKeys
  have hpos : 0 < s.leaves.length := length_pos_of_ne_nil h.leaves_ne
  have ht := h.tower
  refine ⟨ht.levels_pos, ht.levels_le, fun k hk => absurd hk (not_lt_zero k), rfl, ?_,
    fun hl => (ht.level 0 hl).rows,
    fun hl => (ht.level 0 hl).links, fun k hk hl => ?_, ht.above, ht.root_eq, fun hl => ?_,
      fun hl => ?_, fun k hk => ?_⟩
  · exact ne_nil_of_length_pos (hlen ▸ hpos)
  · -- the keys of the leaves do not matter above level 1
    obtain ⟨k, rfl⟩ : ∃ j, k = j + 1 := ⟨k - 1, by omega⟩
    exact ⟨(ht.level _ hl).rows, (ht.level _ hl).links⟩
  · obtain ⟨k, hk⟩ : ∃ j, s.numLevels - 1 = j + 1 :=
      ⟨s.numLevels - 2, by change 0 + 1 < s.numLevels at hl; omega⟩
    have := ht.root_single
    rw [hk] at this
    rw [hk]
    exact this
  · have := ht.root_single
    rw [← hl] at this
    exact this
  · cases k with
    | zero =>
      change update s.rightmostNodes 0 _ 0 = some ⟨0, (leafKeys s ++ [key]).length - 1⟩
      rw [length_append, hlen]
      rfl
    | succ k =>
      have hupd := update_of_ne (succ_ne_zero k) (some (⟨0, s.leaves.length⟩ : NodePtr)) s.rightmostNodes
      exact hupd.trans (ht.rightmost (k + 1) hk)

theorem firstValue_leafKeys (h : ∀ leaf ∈ s.leaves.head?, leaf.items ≠ []) :
    s.firstValue ⟨0, 0⟩ = (leafKeys s).head? := by
  rw [leafKeys, leafRows, firstValue]
  cases hleaves : s.leaves with
  | nil => rfl
  | cons leaf rest =>
    obtain ⟨a, items, hitems⟩ := exists_cons_of_ne_nil (h leaf (by rw [hleaves]; rfl))
    simp [heads, hitems]

theorem Tree.newLeaf (h : Tree s) (hleaves : s.leaves = pre ++ [n])
    (hbound : s.leaves.length + 1 ≤ 64 ^ 10) (item : LeafItem) :
    ∃ new, s.newLeaf pre.length n item = .ok () new ∧ TreeOnly s new ∧
      Tower new (leafKeys s ++ [item.first]) ∧ new.leaves = chained pre n [] := by
  have hlen := h.length_leafKeys
  have hset : s.leaves.set pre.length { n with next := some s.leaves.length } ++ [⟨[], none⟩] =
      chained pre n [] := by
    rw [hleaves]
    simp [set_append_right]
  have hpending := h.pending item.first (chained pre n [])
  have hne : ∀ leaf ∈ s.leaves, leaf.items ≠ [] :=
    fun leaf hleaf => h.rows.ne_nil _ (mem_map_of_mem hleaf)
  have hkeys : leafKeys s ≠ [] := hpending.old_ne
  -- the leaves that were there keep their items
  have hsame : ∀ s1 : IntegerSet, s1.leaves = chained pre n [] →
      s1.firstValue ⟨0, 0⟩ = (leafKeys s ++ [item.first]).head? := by
    intro s1 hs1
    have hrows : leafRows s1 = leafRows s ++ [[]] := by
      rw [leafRows, hs1, leafRows_concat hleaves]
      simp
    have hfirst := firstValue_leafKeys (by
      intro leaf hleaf
      rw [hs1] at hleaf
      cases pre with
      | nil =>
        obtain rfl := some.inj hleaf
        exact hne n (by simp [hleaves])
      | cons leaf0 pre =>
        obtain rfl := some.inj hleaf
        exact hne leaf0 (by simp [hleaves]))
    rw [hfirst, leafKeys, hrows, heads_append, ← leafKeys, head?_append_of_ne_nil _ hkeys,
      head?_append_of_ne_nil _ hkeys]
  obtain ⟨new, hrun, htower, honly⟩ := intsetUpdateUpper_spec (by simp)
    (by rwa [length_append, hlen]) maxTreeLevels 0 le_rfl _ _ _ hpending (hsame _ rfl)
  refine ⟨new, ?_, ?_, htower, ?_⟩
  · rw [IntegerSet.newLeaf, hset, ← hrun, hlen]
  · refine TreeOnly.trans ?_ honly.treeOnly
    rfl
  · rw [honly]

theorem Tree.addItem_newLeaf (h : Tree s) (hleaves : s.leaves = pre ++ [n])
    (hfull : ¬ n.items.length < maxLeafItems) {new : IntegerSet}
    (honly : TreeOnly s new) {item : LeafItem} (htower : Tower new (leafKeys s ++ [item.first])) :
    Tree { new with leaves := chained pre n [item] } := by
  set s' : IntegerSet :=
    { new with leaves := chained pre n [item] } with hs'
  have hrows := leafRows_concat hleaves
  have hrows' : leafRows s' = pre.map LeafNode.items ++ [n.items] ++ [[item]] := by
    rw [leafRows_concat rfl, map_append]
    rfl
  refine ⟨?_, by simp [hs'], ?_, ?_, ?_⟩
  · rw [hrows']
    exact (hrows ▸ h.rows).newRow (by decide) hfull item
  · exact (hleaves ▸ h.linked).newLeaf [item]
  · rw [hs', honly]
    exact h.leftmost_eq
  · have hkeys : leafKeys s' = leafKeys s ++ [item.first] := by
      rw [leafKeys, hrows', heads_append, ← hrows]
      rfl
    rw [hkeys]
    exact htower.congr rfl rfl rfl rfl

theorem treeItems_concat (hleaves : s.leaves = pre ++ [n]) :
    treeItems s = (pre.map LeafNode.items).flatten ++ n.items := by
  rw [treeItems, leafRows_concat hleaves, flatten_append, flatten_singleton]

theorem Grown.pack (h : Grown s) (hleaves : s.leaves = pre ++ [n])
    (hbound : s.leaves.length + 1 ≤ 64 ^ 10) (item : LeafItem) :
    ∃ s', Tree s' ∧ treeItems s' = treeItems s ++ [item] ∧ TreeOnly s s' ∧
      if n.items.length ≥ maxLeafItems then
        ∃ new, s.newLeaf pre.length n item = .ok () new ∧ new.addItem s.leaves.length item = .ok () s' ∧
          s'.leaves.length = s.leaves.length + 1
      else s.addItem pre.length item = .ok () s' ∧ s'.leaves.length = s.leaves.length := by
  have hitems := treeItems_concat hleaves
  by_cases hfull : n.items.length ≥ maxLeafItems
  · -- the first leaf is empty, so it is not full
    have htree : Tree s := by
      refine h.resolve_right fun hfirst => ?_
      have hlast := congrArg getLast? (hleaves.symm.trans hfirst.leaves_eq)
      rw [getLast?_concat] at hlast
      obtain rfl : n = ⟨[], none⟩ := some.inj hlast
      exact absurd hfull (by decide)
    obtain ⟨new, hnew, honly, htower, hnewLeaves⟩ := htree.newLeaf hleaves hbound item
    have hadd := addItem_last hnewLeaves item
    have hlen : (pre ++ [{ n with next := some (pre.length + 1) }]).length = s.leaves.length := by
      simp [hleaves]
    rw [hlen] at hadd
    refine ⟨_, htree.addItem_newLeaf hleaves (not_lt.2 hfull) honly htower, ?_,
      TreeOnly.trans honly rfl, ?_⟩
    · rw [treeItems_concat rfl, hitems]
      simp
    · rw [if_pos hfull]
      exact ⟨new, hnew, hadd, by simp [hleaves]⟩
  refine ⟨{ s with leaves := pre ++ [{ n with items := n.items ++ [item] }] }, ?_, ?_, rfl, ?_⟩
  · rcases h with h | h
    · exact h.addItem hleaves (Nat.lt_of_not_le hfull) item
    have hone := h.addItem item
    have heq : pre ++ [n] = [] ++ [⟨[], none⟩] := hleaves.symm.trans h.leaves_eq
    obtain ⟨rfl, hn⟩ := append_inj' heq rfl
    obtain rfl := singleton_inj.1 hn
    exact hone
  · rw [treeItems_concat rfl, hitems, append_assoc]
  · rw [if_neg hfull]
    exact ⟨addItem_last hleaves item, by simp [hleaves]⟩

end Pg.IntegerSet
