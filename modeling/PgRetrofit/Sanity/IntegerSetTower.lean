import PgRetrofit.Lib.Rows
import PgRetrofit.Spec.IntegerSet

/-! The levels of internal nodes above the leaves, and what a new downlink does to them. -/

namespace Pg.IntegerSet

open List Function Nat

variable {s s' : IntegerSet} {ks : List UInt64}

def rowsAt (s : IntegerSet) (k : ℕ) : List (List (UInt64 × NodePtr)) :=
  (s.internals k).map InternalNode.items

variable {pre : List InternalNode} {n : InternalNode}

theorem rowsAt_concat {k : ℕ} (h : s.internals k = pre ++ [n]) :
    rowsAt s k = pre.map InternalNode.items ++ [n.items] := by
  rw [rowsAt, h, map_append]
  rfl

/-- The low keys of the nodes of a level; those of the leaves are given. -/
def lows (s : IntegerSet) (ks : List UInt64) : ℕ → List UInt64
  | 0 => ks
  | k + 1 => heads Prod.fst (rowsAt s (k + 1))

def downlinks (k : ℕ) (keys : List UInt64) : List (UInt64 × NodePtr) :=
  keys.mapIdx fun i key => (key, ⟨k, i⟩)

theorem downlinks_concat (k : ℕ) (keys : List UInt64) (key : UInt64) :
    downlinks k (keys ++ [key]) = downlinks k keys ++ [(key, ⟨k, keys.length⟩)] := by
  simp [downlinks, mapIdx_append]

theorem map_fst_downlinks (k : ℕ) (keys : List UInt64) : (downlinks k keys).map Prod.fst = keys := by
  refine ext_getElem (by simp [downlinks]) fun i _ _ => ?_
  simp [downlinks]

/-- Level `k + 1` holds the downlinks to level `k`. -/
structure LevelOk (s : IntegerSet) (ks : List UInt64) (k : ℕ) : Prop where
  rows : Rows maxInternalItems (rowsAt s (k + 1))
  links : (rowsAt s (k + 1)).flatten = downlinks k (lows s ks k)

/-- The internal nodes form a tree over leaves with the given low keys. -/
structure Tower (s : IntegerSet) (ks : List UInt64) : Prop where
  levels_pos : 0 < s.numLevels
  levels_le : s.numLevels ≤ maxTreeLevels
  level : ∀ k, k + 1 < s.numLevels → LevelOk s ks k
  above : ∀ k, s.numLevels ≤ k → s.internals k = []
  root_eq : s.root = some ⟨s.numLevels - 1, 0⟩
  root_single : (lows s ks (s.numLevels - 1)).length = 1
  rightmost : ∀ k < s.numLevels, s.rightmostNodes k = some ⟨k, (lows s ks k).length - 1⟩

/-- The same, but for the downlink to the last node of level `l`, which is missing: the
low keys of that level are `old` and `key`. -/
structure Pending (s : IntegerSet) (ks : List UInt64) (l : ℕ) (old : List UInt64)
    (key : UInt64) : Prop where
  lt : l < s.numLevels
  levels_le : s.numLevels ≤ maxTreeLevels
  low : ∀ k < l, LevelOk s ks k
  keys_eq : lows s ks l = old ++ [key]
  old_ne : old ≠ []
  rows : l + 1 < s.numLevels → Rows maxInternalItems (rowsAt s (l + 1))
  links : l + 1 < s.numLevels → (rowsAt s (l + 1)).flatten = downlinks l old
  high : ∀ k, l < k → k + 1 < s.numLevels → LevelOk s ks k
  above : ∀ k, s.numLevels ≤ k → s.internals k = []
  root_eq : s.root = some ⟨s.numLevels - 1, 0⟩
  root_single : l + 1 < s.numLevels → (lows s ks (s.numLevels - 1)).length = 1
  old_single : l + 1 = s.numLevels → old.length = 1
  rightmost : ∀ k < s.numLevels, s.rightmostNodes k = some ⟨k, (lows s ks k).length - 1⟩

/-- Two sets whose internal nodes differ on level `l + 1` only. -/
def SameBut (l : ℕ) (s s' : IntegerSet) : Prop := ∀ k, k ≠ l + 1 → s'.internals k = s.internals k

theorem SameBut.rowsAt_eq {l k : ℕ} (h : SameBut l s s') (hk : k ≠ l + 1) :
    rowsAt s' k = rowsAt s k := by
  rw [rowsAt, rowsAt, h k hk]

theorem SameBut.lows_eq {l k : ℕ} (h : SameBut l s s') (hk : k ≠ l + 1) :
    lows s' ks k = lows s ks k := by
  cases k with
  | zero => rfl
  | succ k => rw [lows, lows, h.rowsAt_eq hk]

theorem SameBut.levelOk {l k : ℕ} (h : SameBut l s s') (hk : k ≠ l) (hlow : lows s' ks k = lows s ks k)
    (hok : LevelOk s ks k) : LevelOk s' ks k := by
  have hrows := h.rowsAt_eq (k := k + 1) (by omega)
  exact ⟨hrows ▸ hok.rows, by rw [hrows, hlow, hok.links]⟩

/-- Each level has at least 64 times the nodes of the next, but for the last row. -/
theorem lows_length (l : ℕ) (h : ∀ k < l, LevelOk s ks k) (hks : 0 < ks.length) :
    64 ^ l * ((lows s ks l).length - 1) < ks.length := by
  induction l with
  | zero =>
    simp only [pow_zero, one_mul, lows]
    omega
  | succ l ih => ?_
  have hih := ih fun k hk => h k (lt_succ_of_lt hk)
  have hok := h l (lt_succ_self l)
  have hlen : (lows s ks (l + 1)).length = (rowsAt s (l + 1)).length := length_heads _ hok.rows.ne_nil
  rcases eq_or_ne (rowsAt s (l + 1)) [] with hnil | hne
  · rw [hlen, hnil]
    simpa using hks
  have hlt := hok.rows.length_lt hne
  rw [hok.links, downlinks, length_mapIdx, ← hlen] at hlt
  calc 64 ^ (l + 1) * ((lows s ks (l + 1)).length - 1)
      = 64 ^ l * (maxInternalItems * ((lows s ks (l + 1)).length - 1)) := by
        rw [pow_succ, mul_assoc]
        rfl
    _ ≤ 64 ^ l * ((lows s ks l).length - 1) := mul_le_mul_left _ (by omega)
    _ < ks.length := hih

/-- `s'` differs from `s` in its internal nodes only. -/
def UpperOnly (s s' : IntegerSet) : Prop :=
  s' = { s with
    internals := s'.internals, rightmostNodes := s'.rightmostNodes, root := s'.root,
      numLevels := s'.numLevels }

section Update

variable {l : ℕ} {old : List UInt64} {key : UInt64} (h : Pending s ks l old key)
  (hl : l + 1 < s.numLevels)
include h hl

theorem Pending.last :
    ∃ pre n, s.internals (l + 1) = pre ++ [n] ∧ s.rightmostNodes (l + 1) = some ⟨l + 1, pre.length⟩ := by
  have hne : s.internals (l + 1) ≠ [] := by
    intro hnil
    have := congrArg length (h.links hl)
    rw [rowsAt, hnil, downlinks, length_mapIdx] at this
    exact h.old_ne (length_eq_zero_iff.1 this.symm)
  obtain ⟨pre, n, hpre⟩ : ∃ pre n, s.internals (l + 1) = pre ++ [n] :=
    ⟨_, _, (dropLast_append_getLast hne).symm⟩
  refine ⟨pre, n, hpre, ?_⟩
  have hlen : (lows s ks (l + 1)).length = pre.length + 1 := by
    rw [lows, length_heads _ (h.rows hl).ne_nil, rowsAt, length_map, hpre, length_append]
    rfl
  rw [h.rightmost _ hl, hlen]
  rfl

theorem Pending.addDownlink
    (hpre : s.internals (l + 1) = pre ++ [n]) (hroom : n.items.length < maxInternalItems) :
    Tower (s.addDownlink ⟨l + 1, pre.length⟩ n key ⟨l, old.length⟩) ks := by
  set s' := s.addDownlink ⟨l + 1, pre.length⟩ n key ⟨l, old.length⟩ with hs'
  have hsame : SameBut l s s' := fun k hk => update_of_ne hk ..
  have hhere : s'.internals (l + 1) = pre ++ [⟨n.items ++ [(key, ⟨l, old.length⟩)]⟩] := by
    rw [hs', IntegerSet.addDownlink]
    simp [hpre, set_append_right]
  have hrows := rowsAt_concat hpre
  have hrows' :
      rowsAt s' (l + 1) = pre.map InternalNode.items ++ [n.items ++ [(key, ⟨l, old.length⟩)]] :=
    rowsAt_concat hhere
  have hne : n.items ≠ [] :=
    (h.rows hl).ne_nil _ (by rw [hrows]; exact mem_append_right _ (mem_singleton_self _))
  have hlow : lows s' ks (l + 1) = lows s ks (l + 1) := by
    rw [lows, lows, hrows, hrows', heads_addLast _ _ hne]
  have hlows : ∀ k, lows s' ks k = lows s ks k := fun k => by
    rcases eq_or_ne k (l + 1) with rfl | hk
    · exact hlow
    · exact hsame.lows_eq hk
  have hrw := h.rows hl
  have hlinks := h.links hl
  rw [hrows] at hrw hlinks
  refine ⟨zero_lt_of_lt h.lt, h.levels_le, fun k hk => ?_, fun k hk => ?_, h.root_eq, ?_, fun k hk => ?_⟩
  · rcases lt_trichotomy k l with hlt | rfl | hgt
    · exact hsame.levelOk hlt.ne (hlows k) (h.low k hlt)
    · refine ⟨hrows' ▸ hrw.addLast hroom _, ?_⟩
      rw [hlows, h.keys_eq, downlinks_concat, ← hlinks, hrows']
      simp
    · exact hsame.levelOk hgt.ne' (hlows k) (h.high k hgt hk)
  · have hk' : s.numLevels ≤ k := hk
    exact (hsame k (by omega)).trans (h.above k hk')
  · rw [hlows]
    exact h.root_single hl
  · rw [hlows]
    exact h.rightmost k hk

/-- Behind a full last node there is a new one, whose downlink is now missing. -/
theorem Pending.newNode
    (hpre : s.internals (l + 1) = pre ++ [n]) (hfull : ¬ n.items.length < maxInternalItems) :
    Pending (s.newInternalNode (l + 1) key ⟨l, old.length⟩).1 ks (l + 1) (lows s ks (l + 1)) key ∧
      (s.internals (l + 1)).length = (lows s ks (l + 1)).length := by
  set s' := (s.newInternalNode (l + 1) key ⟨l, old.length⟩).1 with hs'
  have hsame : SameBut l s s' := fun k hk => update_of_ne hk ..
  have hhere : s'.internals (l + 1) = s.internals (l + 1) ++ [⟨[(key, ⟨l, old.length⟩)]⟩] :=
    update_self ..
  have hrows' : rowsAt s' (l + 1) = rowsAt s (l + 1) ++ [[(key, ⟨l, old.length⟩)]] := by
    rw [rowsAt, hhere, map_append]
    rfl
  have hkeys : lows s' ks (l + 1) = lows s ks (l + 1) ++ [key] := by
    rw [lows, hrows', heads_append]
    rfl
  have hlen : (lows s ks (l + 1)).length = (s.internals (l + 1)).length := by
    rw [lows, length_heads _ (h.rows hl).ne_nil, rowsAt, length_map]
  have hrows := h.rows hl
  have hpre' := rowsAt_concat hpre
  refine ⟨⟨hl, h.levels_le, fun k hk => ?_, hkeys, ?_, fun hl' => ?_, fun hl' => ?_,
    fun k hk hk' => ?_, fun k hk => ?_,
    h.root_eq, fun hl' => ?_, fun hl' => ?_, fun k hk => ?_⟩, hlen.symm⟩
  · rcases lt_or_ge k l with hlt | hge
    · exact hsame.levelOk hlt.ne (hsame.lows_eq (by omega)) (h.low k hlt)
    obtain rfl : k = l := by omega
    refine ⟨?_, ?_⟩
    · rw [hrows', hpre']
      exact (hpre' ▸ hrows).newRow (by decide) hfull _
    · rw [hsame.lows_eq (by omega), h.keys_eq, downlinks_concat, ← h.links hl, hrows', flatten_append]
      rfl
  · intro hnil
    rw [hnil, hpre] at hlen
    simp at hlen
  · rw [hsame.rowsAt_eq (by omega)]
    exact (h.high (l + 1) (lt_succ_self l) hl').rows
  · rw [hsame.rowsAt_eq (by omega)]
    exact (h.high (l + 1) (lt_succ_self l) hl').links
  · exact hsame.levelOk (by omega) (hsame.lows_eq (by omega)) (h.high k (by omega) hk')
  · have hk' : s.numLevels ≤ k := hk
    exact (hsame k (by omega)).trans (h.above k hk')
  · have := h.root_single hl
    rwa [hsame.lows_eq (by omega)]
  · have hl'' : l + 1 + 1 = s.numLevels := hl'
    have := h.root_single hl
    rwa [← hl''] at this
  · rcases eq_or_ne k (l + 1) with rfl | hne
    · rw [hkeys, length_append, hlen]
      exact update_self ..
    · rw [hsame.lows_eq hne, ← h.rightmost k hk]
      exact update_of_ne hne ..

omit hl h

theorem firstValue_eq (l : ℕ) (h : ∀ k < l, LevelOk s ks k) (hfirst : s.firstValue ⟨0, 0⟩ = ks.head?) :
    s.firstValue ⟨l, 0⟩ = (lows s ks l).head? := by
  cases l with
  | zero => exact hfirst
  | succ l => ?_
  have hne := (h l (lt_succ_self l)).rows.ne_nil
  change ((s.internals (l + 1))[0]?.bind fun n => n.items.head?.map Prod.fst) =
    (heads Prod.fst ((s.internals (l + 1)).map InternalNode.items)).head?
  unfold rowsAt at hne
  cases hi : s.internals (l + 1) with
  | nil => rfl
  | cons n rest =>
    obtain ⟨a, items, ha⟩ := exists_cons_of_ne_nil (hne n.items (by rw [hi]; exact mem_cons_self ..))
    simp [heads, ha]

/-- A missing downlink to a second node on the top level: there is a new root for both. -/
theorem Pending.newRoot (h : Pending s ks l old key) (hl : l + 1 = s.numLevels) (hks : ks ≠ [])
    (hbound : ks.length ≤ 64 ^ 10) (hfirst : s.firstValue ⟨0, 0⟩ = ks.head?) :
    ∃ s', s.newRoot (l + 1) = .ok () s' ∧ Pending s' ks l old key ∧ l + 1 < s'.numLevels ∧
      UpperOnly s s' := by
  obtain ⟨k0, rfl⟩ : ∃ k0, old = [k0] := length_eq_one_iff.1 (h.old_single hl)
  -- with all levels in use there would be more leaves than values
  have hmax : s.numLevels ≠ maxTreeLevels := by
    intro hmax
    obtain rfl : l = 10 := succ.inj (hl.trans hmax)
    have := lows_length 10 h.low (length_pos_of_ne_nil hks)
    rw [h.keys_eq] at this
    exact absurd hbound (Nat.not_le_of_lt this)
  have hroot : s.root = some ⟨l, 0⟩ := by rw [h.root_eq, ← hl, Nat.add_sub_cancel]
  have hkey : s.firstValue ⟨l, 0⟩ = some k0 := by
    rw [firstValue_eq l h.low hfirst, h.keys_eq]
    rfl
  have hempty : s.internals (l + 1) = [] := h.above _ hl.ge
  set s1 := (s.newInternalNode (l + 1) k0 ⟨l, 0⟩).1 with hs1
  set s' : IntegerSet :=
    { s1 with numLevels := s.numLevels + 1, root := some ⟨l + 1, (s.internals (l + 1)).length⟩ } with hs'
  have hsame : SameBut l s s' := fun k hk => update_of_ne hk ..
  have hhere : s'.internals (l + 1) = s.internals (l + 1) ++ [⟨[(k0, ⟨l, 0⟩)]⟩] := update_self ..
  have hrows : rowsAt s' (l + 1) = [[(k0, ⟨l, 0⟩)]] := by
    rw [rowsAt_concat hhere, hempty]
    rfl
  have hnum : s'.numLevels = l + 2 := congrArg (· + 1) hl.symm
  refine ⟨s', ?_,
    ⟨by omega, ?_, fun k hk => ?_, ?_, h.old_ne, fun _ => ?_, fun _ => ?_, fun k hk hk' => ?_,
      fun k hk => ?_,
    ?_, fun _ => ?_, fun hl' => ?_, fun k hk => ?_⟩, by omega, rfl⟩
  · rw [IntegerSet.newRoot, hroot]
    simp only
    rw [if_neg hmax, hkey]
    rfl
  · have := h.levels_le
    omega
  · exact hsame.levelOk hk.ne (hsame.lows_eq (by omega)) (h.low k hk)
  · rw [hsame.lows_eq (by omega), h.keys_eq]
  · rw [hrows]
    exact Rows.single (by decide) _
  · rw [hrows]
    rfl
  · omega
  · exact (hsame k (by omega)).trans (h.above k (by omega))
  · rw [hnum]
    change some (⟨l + 1, (s.internals (l + 1)).length⟩ : NodePtr) = _
    rw [hempty]
    rfl
  · rw [hnum]
    change (lows s' ks (l + 1)).length = 1
    rw [lows, hrows]
    rfl
  · omega
  · rcases eq_or_ne k (l + 1) with rfl | hne
    · have : s'.rightmostNodes (l + 1) = some ⟨l + 1, (s.internals (l + 1)).length⟩ := update_self ..
      rw [this, lows, hrows, hempty]
      rfl
    · rw [hsame.lows_eq hne, ← h.rightmost k (by omega)]
      exact update_of_ne hne ..

theorem UpperOnly.trans {s1 s2 s3 : IntegerSet} (h : UpperOnly s1 s2) (h' : UpperOnly s2 s3) :
    UpperOnly s1 s3 := by
  unfold UpperOnly at *
  rw [h', h]

theorem UpperOnly.firstValue_zero (h : UpperOnly s s') : s'.firstValue ⟨0, 0⟩ = s.firstValue ⟨0, 0⟩ := by
  rw [h]
  rfl

/-- The missing downlink is added, with new nodes up to the root where the old are full. -/
theorem intsetUpdateUpper_spec (hks : ks ≠ []) (hbound : ks.length ≤ 64 ^ 10) (fuel l : ℕ)
    (hfuel : maxTreeLevels ≤ l + fuel) (s : IntegerSet) (old : List UInt64) (key : UInt64)
    (h : Pending s ks l old key) (hfirst : s.firstValue ⟨0, 0⟩ = ks.head?) :
    ∃ s', intsetUpdateUpper fuel s (l + 1) ⟨l, old.length⟩ key = .ok () s' ∧
      Tower s' ks ∧ UpperOnly s s' := by
  induction fuel generalizing l s old with
  | zero =>
    have := h.lt
    have := h.levels_le
    omega
  | succ fuel ih => ?_
  -- a new root where there is none above the level
  obtain ⟨s1, hroot, h1, hl, hframe⟩ : ∃ s1,
      (if l + 1 ≥ s.numLevels then s.newRoot (l + 1) else .ok () s) = .ok () s1 ∧
      Pending s1 ks l old key ∧ l + 1 < s1.numLevels ∧ UpperOnly s s1 := by
    by_cases hge : l + 1 ≥ s.numLevels
    · obtain ⟨s1, hroot, h1, hl, hframe⟩ := h.newRoot (by have := h.lt; omega) hks hbound hfirst
      exact ⟨s1, by rw [if_pos hge, hroot], h1, hl, hframe⟩
    · exact ⟨s, by rw [if_neg hge], h, by omega, rfl⟩
  obtain ⟨pre, n, hpre, hright⟩ := h1.last hl
  have hget : (s1.internals (l + 1))[pre.length]? = some n := by rw [hpre]; simp
  rw [intsetUpdateUpper, hroot]
  simp only [hright, hget]
  by_cases hroom : n.items.length < maxInternalItems
  · rw [if_pos hroom]
    exact ⟨_, rfl, h1.addDownlink hl hpre hroom, hframe.trans rfl⟩
  rw [if_neg hroom]
  obtain ⟨h2, hlen⟩ := h1.newNode hl hpre hroom
  have hnew : UpperOnly s1 (s1.newInternalNode (l + 1) key ⟨l, old.length⟩).1 := rfl
  obtain ⟨s', hrun, htower, hframe'⟩ := ih (l + 1) (by omega) _ _ h2 (by
    rw [← hfirst, ← hframe.firstValue_zero]
    rfl)
  refine ⟨s', ?_, htower, (hframe.trans hnew).trans hframe'⟩
  rw [← hlen] at hrun
  exact hrun

end Update

end Pg.IntegerSet
