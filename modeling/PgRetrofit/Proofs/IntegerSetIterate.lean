import PgRetrofit.Proofs.IntegerSetRead

/-! What an iteration over an integer set returns. -/

namespace Pg.IntegerSet

open List UInt64 Nat

variable {s s' : IntegerSet} {xs ys : List UInt64} {x : UInt64} {leaf : LeafNode} {node : ℕ}

def itemsLeft (s : IntegerSet) : List LeafItem :=
  match s.iterNode with
  | none => []
  | some node =>
    ((leafRows s)[node]?.getD []).drop s.iterItemno ++ ((leafRows s).drop (node + 1)).flatten

/-- the values of the current array that are still to be returned -/
def arrayLeft (s : IntegerSet) : List UInt64 := (s.iterArray.take s.iterNumValues).drop s.iterValueno

/-- the buffer, until the iteration has come to it -/
def bufferLeft (s : IntegerSet) : List UInt64 :=
  if s.iterValues = .iterValuesBuf then s.bufferedValues else []

/-- The iteration has `ys` still to return. -/
structure Iterating (s : IntegerSet) (ys : List UInt64) : Prop where
  linked : Linked s.leaves
  node_lt : ∀ node ∈ s.iterNode, node < s.leaves.length
  array_le : s.iterNumValues ≤ s.iterArray.length
  buf_of_node : s.iterNode ≠ none → s.iterValues = .iterValuesBuf
  values_eq : arrayLeft s ++ (itemsLeft s).flatMap itemValues ++ bufferLeft s = ys

/-- `s'` differs from `s` in its iteration only. -/
def IterOnly (s s' : IntegerSet) : Prop :=
  s' = { s with
    iterActive := s'.iterActive, iterValues := s'.iterValues, iterNumValues := s'.iterNumValues
    iterValueno := s'.iterValueno, iterNode := s'.iterNode, iterItemno := s'.iterItemno
    iterValuesBuf := s'.iterValuesBuf }

theorem IterOnly.trans {s1 s2 s3 : IntegerSet} (h : IterOnly s1 s2) (h' : IterOnly s2 s3) :
    IterOnly s1 s3 := by
  unfold IterOnly at *
  rw [h', h]

def roundsLeft (s : IntegerSet) : ℕ :=
  (match s.iterNode with
    | none => 0
    | some node => s.leaves.length - node) + if s.iterValues = .iterValuesBuf then 1 else 0

theorem roundsLeft_le (s : IntegerSet) : roundsLeft s ≤ s.leaves.length + 1 := by
  rw [roundsLeft]
  cases s.iterNode <;> dsimp only <;> split <;> omega

theorem Iterating.next_array {v : UInt64} {vs : List UInt64} (h : Iterating s ys)
    (hvs : arrayLeft s = v :: vs) (fuel : ℕ) :
    ∃ s', intsetIterateNext (fuel + 1) s = .ok (ys.head?, s') ∧ Iterating s' ys.tail ∧
      IterOnly s s' ∧ ys ≠ [] := by
  have hlt : s.iterValueno < s.iterNumValues ∧ s.iterValueno < s.iterArray.length := by
    have hlen := congrArg length hvs
    rw [arrayLeft, length_drop, length_take, length_cons] at hlen
    omega
  have hget : s.iterArray[s.iterValueno]? = some v := by
    have hhead := congrArg head? hvs
    rwa [arrayLeft, head?_drop, getElem?_take_of_lt hlt.1] at hhead
  have htail : (s.iterArray.take s.iterNumValues).drop (s.iterValueno + 1) = vs := by
    rw [← tail_drop, ← arrayLeft, hvs, tail_cons]
  have hys := h.values_eq
  rw [hvs] at hys
  refine ⟨{ s with iterValueno := s.iterValueno + 1 }, ?_,
    ⟨h.linked, h.node_lt, h.array_le, h.buf_of_node, ?_⟩, rfl, hys ▸ cons_ne_nil _ _⟩
  · rw [intsetIterateNext, if_pos hlt.1, hget, ← hys]
    rfl
  rw [← hys]
  change (s.iterArray.take s.iterNumValues).drop (s.iterValueno + 1) ++
    (itemsLeft s).flatMap itemValues ++ bufferLeft s = _
  rw [htail]
  rfl

theorem leafRows_get (hleaf : s.leaves[node]? = some leaf) :
    (leafRows s)[node]?.getD [] = leaf.items := by
  rw [leafRows, getElem?_map, hleaf]
  rfl

variable (h : Iterating s ys)
include h

theorem Iterating.decode {item : LeafItem} (harr : arrayLeft s = [])
    (hnode : s.iterNode = some node) (hleaf : s.leaves[node]? = some leaf)
    (hitem : leaf.items[s.iterItemno]? = some item) :
    Iterating { s with
      iterItemno := s.iterItemno + 1, iterValuesBuf := itemValues item
      iterNumValues := (itemValues item).length, iterValueno := 0 } ys := by
  have hbuf := h.buf_of_node (by simp [hnode])
  set new : IntegerSet := { s with
    iterItemno := s.iterItemno + 1, iterValuesBuf := itemValues item
    iterNumValues := (itemValues item).length, iterValueno := 0 } with hnew
  have harray : new.iterArray = itemValues item := by simp only [iterArray, hnew, hbuf]
  have hitems : itemsLeft s = item :: itemsLeft new := by
    obtain ⟨hlt, rfl⟩ := List.getElem?_eq_some_iff.1 hitem
    rw [itemsLeft, itemsLeft, hnode]
    dsimp only
    rw [leafRows_get hleaf, leafRows_get (s := new) hleaf, drop_eq_getElem_cons hlt]
    rfl
  refine ⟨h.linked, h.node_lt, ?_, h.buf_of_node, ?_⟩
  · rw [harray]
  · rw [← h.values_eq, harr, hitems, arrayLeft, harray, take_length, drop_zero]
    rfl

theorem Iterating.nextLeaf (hnode : s.iterNode = some node)
    (hleaf : s.leaves[node]? = some leaf) (hitem : leaf.items[s.iterItemno]? = none) :
    Iterating { s with iterNode := leaf.next, iterItemno := 0 } ys ∧
      roundsLeft { s with iterNode := leaf.next, iterItemno := 0 } < roundsLeft s := by
  have hbuf := h.buf_of_node (by simp [hnode])
  have hlt := h.node_lt node hnode
  have hdrop : leaf.items.drop s.iterItemno = [] := drop_eq_nil_iff.2 (getElem?_eq_none_iff.1 hitem)
  have hitems : itemsLeft s = ((leafRows s).drop (node + 1)).flatten := by
    rw [itemsLeft, hnode]
    dsimp only
    rw [leafRows_get hleaf, hdrop, nil_append]
  have hlen : (leafRows s).length = s.leaves.length := length_map ..
  rw [h.linked node leaf hleaf]
  by_cases hmore : node + 1 < s.leaves.length
  · rw [if_pos hmore]
    refine ⟨⟨h.linked, ?_, h.array_le, fun _ => hbuf, ?_⟩, ?_⟩
    · intro j hj
      obtain rfl := Option.some.inj hj
      exact hmore
    · rw [← h.values_eq, hitems, drop_eq_getElem_cons (by rwa [hlen])]
      simp [itemsLeft, arrayLeft, bufferLeft, iterArray, leafRows, hmore]
    · simp only [roundsLeft, hnode]
      omega
  rw [if_neg hmore]
  refine ⟨⟨h.linked, ?_, h.array_le, fun hne => absurd rfl hne, ?_⟩, ?_⟩
  · intro j hj
    cases hj
  · rw [← h.values_eq, hitems, drop_eq_nil_iff.2 (by omega)]
    rfl
  · simp only [roundsLeft, hnode]
    omega

theorem Iterating.toBuffer (harr : arrayLeft s = []) (hnode : s.iterNode = none)
    (hbuf : s.iterValues = .iterValuesBuf) :
    Iterating { s with
      iterValues := .bufferedValues, iterNumValues := s.bufferedValues.length,
        iterValueno := 0 } ys := by
  refine ⟨h.linked, h.node_lt, le_rfl, fun hne => absurd hnode hne, ?_⟩
  rw [← h.values_eq, harr]
  simp [arrayLeft, iterArray, itemsLeft, hnode, bufferLeft, hbuf]

omit h

/-- The next value, whatever leaves and arrays have to be gone through for it. -/
theorem Iterating.next (fuel : ℕ) (s : IntegerSet) (h : Iterating s ys)
    (hfuel : roundsLeft s + 2 ≤ fuel) :
    ∃ s', intsetIterateNext fuel s = .ok (ys.head?, s') ∧ Iterating s' ys.tail ∧ IterOnly s s' ∧
      (ys = [] → s'.iterActive = false) := by
  induction fuel generalizing s with
  | zero => omega
  | succ fuel ih => ?_
  cases harr : arrayLeft s with
  | cons v vs =>
    obtain ⟨s', hrun, h', honly, hne⟩ := h.next_array harr fuel
    exact ⟨s', hrun, h', honly, fun hnil => absurd hnil hne⟩
  | nil => ?_
  have hdone : ¬ s.iterValueno < s.iterNumValues := by
    have hle := h.array_le
    rw [arrayLeft, drop_eq_nil_iff, length_take] at harr
    omega
  rw [intsetIterateNext, if_neg hdone]
  cases hnode : s.iterNode with
  | some node =>
    obtain ⟨leaf, hleaf⟩ : ∃ leaf, s.leaves[node]? = some leaf :=
      ⟨_, getElem?_eq_getElem (h.node_lt node hnode)⟩
    simp only [hleaf]
    cases hitem : leaf.items[s.iterItemno]? with
    | some item =>
      -- a decoded item is not empty, so the next round returns
      obtain _ | fuel := fuel
      · omega
      have h1 := h.decode harr hnode hleaf hitem
      have hbuf := h.buf_of_node (by simp [hnode])
      obtain ⟨s', hrun, h', honly, hne⟩ := h1.next_array
        (by simp only [arrayLeft, iterArray, hbuf, take_length, drop_zero]; rfl) fuel
      rw [hnode] at hrun
      refine ⟨s', hrun, h', IterOnly.trans ?_ honly, fun hnil => absurd hnil hne⟩
      rfl
    | none =>
      obtain ⟨h1, hrounds⟩ := h.nextLeaf hnode hleaf hitem
      obtain ⟨s', hrun, h', honly, hlast⟩ := ih _ h1 (by omega)
      refine ⟨s', hrun, h', IterOnly.trans ?_ honly, hlast⟩
      rfl
  | none =>
    by_cases hbuf : s.iterValues = .iterValuesBuf
    · have h1 := h.toBuffer harr hnode hbuf
      obtain ⟨s', hrun, h', honly, hlast⟩ := ih _ h1 (by
        simp only [roundsLeft, hnode, hbuf, if_true] at hfuel
        simp only [roundsLeft, hnode]
        exact le_of_succ_le_succ hfuel)
      rw [hnode] at hrun
      rw [if_pos hbuf]
      refine ⟨s', hrun, h', IterOnly.trans ?_ honly, hlast⟩
      rfl
    · have hys : ys = [] := by
        rw [← h.values_eq, harr, itemsLeft, hnode, bufferLeft, if_neg hbuf]
        rfl
      rw [if_neg hbuf, hys]
      refine ⟨{ s with iterActive := false }, by rw [hnode]; rfl,
        ⟨h.linked, h.node_lt, h.array_le, h.buf_of_node, ?_⟩, rfl, fun _ => rfl⟩
      exact h.values_eq.trans hys

theorem Iterating.all {fuel : ℕ} (hfuel : s.leaves.length + 3 ≤ fuel) (calls : ℕ) (h : Iterating s ys)
    (hcalls : ys.length < calls) :
    ∃ s', iterateAll fuel calls s = .ok (ys, s') ∧ IterOnly s s' ∧ s'.iterActive = false := by
  induction calls generalizing s ys with
  | zero => omega
  | succ calls ih => ?_
  have hrounds := roundsLeft_le s
  obtain ⟨s1, hrun, h1, honly, hlast⟩ := Iterating.next fuel s h (by omega)
  rw [iterateAll, hrun]
  cases ys with
  | nil => exact ⟨s1, rfl, honly, hlast rfl⟩
  | cons y ys => ?_
  have hleaves : s1.leaves = s.leaves := by rw [honly]
  obtain ⟨s', hrest, honly', hend⟩ := ih (by rwa [hleaves]) h1 (lt_of_succ_lt_succ hcalls)
  refine ⟨s', ?_, honly.trans honly', hend⟩
  change (iterateAll fuel calls s1).map _ = _
  rw [hrest]
  rfl

theorem Holds.begin (h : Holds s xs) : Iterating s.intsetBeginIterate xs := by
  rcases h.shape with ht | he
  · refine ⟨ht.linked, ?_, zero_le _, fun _ => rfl, ?_⟩
    · intro node hnode
      obtain rfl : 0 = node := Option.mem_unique ht.leftmost_eq hnode
      exact length_pos_of_ne_nil ht.leaves_ne
    have hitems : itemsLeft s.intsetBeginIterate = treeItems s := by
      obtain ⟨leaf, rest, hleaves⟩ := exists_cons_of_ne_nil ht.leaves_ne
      simp [itemsLeft, intsetBeginIterate, ht.leftmost_eq, treeItems, leafRows, hleaves]
    rw [hitems]
    exact h.values_eq
  refine ⟨?_, ?_, zero_le _, fun _ => rfl, ?_⟩
  · intro i leaf hleaf
    change s.leaves[i]? = some leaf at hleaf
    rw [he.leaves_eq] at hleaf
    cases hleaf
  · intro node hnode
    cases he.leftmost_eq.symm.trans hnode
  · have hitems : itemsLeft s.intsetBeginIterate = [] := by
      simp [itemsLeft, intsetBeginIterate, he.leftmost_eq]
    rw [hitems]
    exact (he.treeValues_eq ▸ h.values_eq : [] ++ s.bufferedValues = xs)

theorem Holds.iterOnly (h : Holds s xs) (honly : IterOnly s s') (hend : s'.iterActive = false) :
    Holds s' xs := by
  rw [IterOnly, hend] at honly
  rw [honly]
  refine ⟨h.shape.imp (fun ht => ?_) fun he => ?_, h.values_eq, h.increasing,
    h.buffered_le, h.numEntries_eq, h.highest_eq, rfl⟩
  · exact ht.congr rfl rfl rfl rfl rfl rfl
  · exact { he with }

theorem Holds.iterate (h : Holds s xs) {fuel calls : ℕ} (hfuel : s.leaves.length + 3 ≤ fuel)
    (hcalls : xs.length < calls) :
    ∃ s', iterateAll fuel calls s.intsetBeginIterate = .ok (xs, s') ∧ Holds s' xs := by
  obtain ⟨s', hrun, honly, hend⟩ := Iterating.all (s := s.intsetBeginIterate) hfuel calls h.begin hcalls
  have hbegin : IterOnly s s.intsetBeginIterate := rfl
  exact ⟨s', hrun, h.iterOnly (hbegin.trans honly) hend⟩

theorem addMembers_holds (hxs : xs.Pairwise (· < ·)) :
    ∃ s, intsetCreate.addMembers xs = .ok () s ∧ Holds s xs :=
  intsetCreate_holds.addMembers (increasing_iff.2 hxs)

/-- Fewer than `2 ^ 64` increasing values are all added. Exactly they are members, an
iteration returns them in order, their number is right, and a value that is not greater
than the last is refused without a change. -/
theorem addMembers_set (hxs : xs.Pairwise (· < ·)) (hlen : xs.length < 2 ^ 64) :
    ∃ s, intsetCreate.addMembers xs = .ok () s ∧
      (∀ x, s.intsetIsMember x = .ok (decide (x ∈ xs))) ∧
      (∀ fuel ≥ s.leaves.length + 3, ∀ calls > xs.length,
        ∃ s', iterateAll fuel calls s.intsetBeginIterate = .ok (xs, s')) ∧
      s.numEntries.toNat = xs.length ∧
      ∀ v ∈ xs.getLast?, ∀ x ≤ v,
        s.intsetAddMember x = .error (.elog "cannot add value to integer set out of order") s := by
  obtain ⟨s, hrun, h⟩ := addMembers_holds hxs
  refine ⟨s, hrun, h.isMember, fun fuel hfuel calls hcalls => ?_, ?_,
    fun v hv x hx => h.refuse hlen hv hx⟩
  · obtain ⟨s', hall, -⟩ := h.iterate hfuel hcalls
    exact ⟨s', hall⟩
  · rw [h.numEntries_eq, mod_eq_of_lt hlen]

def valuesBelow (n : ℕ) : List UInt64 := (List.range n).map UInt64.ofNat

theorem valuesBelow_pairwise {n : ℕ} (hn : n ≤ 2 ^ 64) : (valuesBelow n).Pairwise (· < ·) := by
  rw [valuesBelow, pairwise_map]
  refine pairwise_lt_range.imp_of_mem fun {a b} ha hb hab => ?_
  rw [lt_iff_toNat_lt, toNat_ofNat_of_lt', toNat_ofNat_of_lt']
  · exact hab
  · exact (mem_range.1 hb).trans_le hn
  · exact (mem_range.1 ha).trans_le hn

theorem length_valuesBelow (n : ℕ) : (valuesBelow n).length = n := by
  rw [valuesBelow, length_map, length_range]

theorem addMembers_set_thousand :
    (valuesBelow 1000).Pairwise (· < ·) ∧ (valuesBelow 1000).length < 2 ^ 64 ∧
      ∃ s, intsetCreate.addMembers (valuesBelow 1000) = .ok () s ∧ s.intsetIsMember 17 = .ok true ∧
        s.intsetIsMember 1000 = .ok false ∧ s.numEntries.toNat = 1000 := by
  have hlen : (valuesBelow 1000).length < 2 ^ 64 := by
    rw [length_valuesBelow]
    decide
  obtain ⟨s, hrun, hmem, -, hnum, -⟩ := addMembers_set (valuesBelow_pairwise (by decide)) hlen
  refine ⟨valuesBelow_pairwise (by decide), hlen, s, hrun, ?_, ?_, hnum.trans (length_valuesBelow 1000)⟩
  · have hin : 17 ∈ valuesBelow 1000 := mem_map.2 ⟨17, mem_range.2 (by decide), rfl⟩
    rw [hmem, decide_eq_true hin]
  rw [hmem, decide_eq_false]
  intro h
  obtain ⟨a, ha, heq⟩ := mem_map.1 h
  have ha' := mem_range.1 ha
  have := congrArg toNat heq
  rw [toNat_ofNat_of_lt' (ha'.trans (by decide))] at this
  exact absurd (this ▸ ha') (by decide)

/-- With every value in the set the count is back at zero. -/
theorem addMembers_all :
    (valuesBelow (2 ^ 64)).Pairwise (· < ·) ∧
      ∃ s, intsetCreate.addMembers (valuesBelow (2 ^ 64)) = .ok () s ∧
      s.numEntries.toNat = 0 ∧ (valuesBelow (2 ^ 64)).length = 2 ^ 64 := by
  have hall := valuesBelow_pairwise le_rfl
  obtain ⟨s, hrun, h⟩ := addMembers_holds hall
  refine ⟨hall, s, hrun, ?_, length_valuesBelow _⟩
  rw [h.numEntries_eq, length_valuesBelow, mod_self]

end Pg.IntegerSet
