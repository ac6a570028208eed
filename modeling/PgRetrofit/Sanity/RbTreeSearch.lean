import PgRetrofit.Lib.SortedList
import PgRetrofit.Sanity.RbTreeHeap

/-! The loops that move through a tree without changing it. -/

namespace Pg.Rbt

open RedBlack SortedList List ColorTree TreePath

variable {α : Type} {s : Mem α} {cmp : α → α → ℤ} {rbt : RBTree α} {c : Color} {d : Side} {u : Ptr × α}
  {v : α} {x y t : Shape α}
  {k : Around α} {fuel : ℕ}

def entries (t : Shape α) : List α := t.toList.map Prod.snd

def entriesBefore (k : Around α) : List α := (k.before .left).map Prod.snd

def entriesAfter (k : Around α) : List α := (k.after .left).map Prod.snd

theorem entries_fill (k : Around α) (t : Shape α) :
    entries (k.fill t) = entriesBefore k ++ (entries t ++ entriesAfter k) := by
  rw [entries, toList_fill, map_append, map_append]
  rfl

theorem entries_node (c : Color) (u : Ptr × α) (l r : Shape α) :
    entries (.node c u l r) = entries l ++ u.2 :: entries r := by
  rw [entries, toList, walk, map_append]
  rfl

theorem entries_fill_node (k : Around α) (c : Color) (u : Ptr × α) (l r : Shape α) :
    entries (k.fill (.node c u l r)) = (entriesBefore k ++ entries l) ++ u.2 ::
      (entries r ++ entriesAfter k) := by
  rw [entries_fill, entries_node]
  simp

/-- A red-black tree in memory: the links between its nodes are consistent, its root is black,
it is balanced, and its entries are in order. -/
structure Valid (rbt : RBTree α) (s : Mem α) (t : Shape α) : Prop where
  mem : At s [] t
  black : t.color = .black
  balanced : ∃ n, t.Balanced n
  sorted : Sorted rbt.comparator (entries t)

/-- The way down to the node with this key, or to the hole where it would be. -/
def seek (cmp : α → α → ℤ) (v : α) : Around α → Shape α → Around α × Shape α
  | k, .nil => (k, .nil)
  | k, .node c u l r =>
    if cmp v u.2 = 0 then (k, .node c u l r)
    else if cmp v u.2 < 0 then seek cmp v (⟨.left, c, u, r⟩ :: k) l
    else seek cmp v (⟨.right, c, u, l⟩ :: k) r

theorem seek_fill (cmp : α → α → ℤ) (v : α) (k : Around α) (t : Shape α) :
    fill (seek cmp v k t).1 (seek cmp v k t).2 = k.fill t := by
  induction t generalizing k with
  | nil => rfl
  | node c u l r ihl ihr =>
    rw [seek]
    split_ifs
    · rfl
    · exact ihl _
    · exact ihr _

theorem seek_at (h : At s k t) (cmp : α → α → ℤ) (v : α) :
    At s (seek cmp v k t).1 (seek cmp v k t).2 := by
  rwa [at_fill, seek_fill, ← at_fill]

theorem seek_found {l r : Shape α} (h : (seek cmp v k t).2 = .node c u l r) : cmp v u.2 = 0 := by
  induction t generalizing k with
  | nil => cases h
  | node c' u' l' r' ihl ihr => ?_
  rw [seek] at h
  split_ifs at h with h1 h2
  · cases h
    exact h1
  · exact ihl h
  · exact ihr h

theorem seek_between (ho : Total cmp) (ht : Sorted cmp (entries t))
    (hk : Between cmp v (entriesBefore k) (entriesAfter k)) (h : (seek cmp v k t).2 = .nil) :
    Between cmp v (entriesBefore (seek cmp v k t).1) (entriesAfter (seek cmp v k t).1) := by
  induction t generalizing k with
  | nil => exact hk
  | node c u l r ihl ihr => ?_
  rw [entries_node] at ht
  obtain ⟨hl, hr, hcross⟩ := pairwise_append.1 ht
  obtain ⟨hu, hr⟩ := pairwise_cons.1 hr
  rw [seek] at h ⊢
  split_ifs at h ⊢ with h1 h2
  · refine ihl hl ⟨hk.1, fun b hb => ?_⟩ h
    rw [entriesAfter, TreePath.after, if_pos rfl, map_append] at hb
    rcases mem_append.1 hb with hb | hb
    · rcases mem_cons.1 hb with rfl | hb
      · exact h2
      · exact ho.lt_le h2 (hu b hb).le
    · exact hk.2 b hb
  have h3 : 0 < cmp v u.2 := lt_of_le_of_ne (not_lt.1 h2) (Ne.symm h1)
  refine ihr hr ⟨fun a ha => ?_, hk.2⟩ h
  rw [entriesBefore, before, if_neg (by simp), map_append, map_append] at ha
  rcases mem_append.1 ha with ha | ha
  · exact hk.1 a ha
  rcases mem_append.1 ha with ha | ha
  · exact ho.gt_iff.2 (ho.lt_le (hcross a ha _ mem_cons_self) (ho.gt_iff.1 h3).le)
  · obtain rfl := mem_singleton.1 ha
    exact h3

def foundPtr : Shape α → Ptr
  | .nil => null
  | .node _ u _ _ => u.1

theorem findLoop_eq (h : At s k t) (hfuel : t.toList.length < fuel) :
    findLoop rbt v fuel (ptr t) s = .ok (foundPtr (seek rbt.comparator v k t).2, s) := by
  induction t generalizing k fuel with
  | nil =>
    obtain _ | fuel := fuel
    · omega
    rfl
  | node c u l r ihl ihr => ?_
  have hmk : At s k (.mk .left c u l r) := h
  have hlen : (node c u l r).toList.length = _ := length_toList_mk (d := .left)
  obtain _ | fuel := fuel
  · omega
  have hright : getChild .right u.1 s = .ok (ptr r, s) := hmk.far
  rw [findLoop, ptr, if_neg hmk.node_proper.2, bind_ok (getData_ok hmk.data), seek]
  split_ifs
  · rfl
  · rw [bind_ok hmk.near]
    exact ihl (at_near.1 hmk) (by omega)
  · rw [bind_ok hright]
    exact ihr (at_far.1 hmk) (by omega)

def LastCmp (cmp : ℤ) : Around α → Prop
  | [] => True
  | f :: _ => f.side = if cmp < 0 then .left else .right

theorem insertSearch_eq (rbt : RBTree α) (v : α) {last : ℤ} (h : At s k t) (hlast : LastCmp last k)
    (hfuel : t.toList.length < fuel) :
    (∃ c u l r, (seek rbt.comparator v k t).2 = .node c u l r ∧
      insertSearch rbt v fuel (ptr t) (above k) last s = .ok (.inl u.1, s)) ∨
      ∃ last', (seek rbt.comparator v k t).2 = .nil ∧ LastCmp last' (seek rbt.comparator v k t).1 ∧
        insertSearch rbt v fuel (ptr t) (above k) last s =
          .ok (.inr (above (seek rbt.comparator v k t).1, last'), s) := by
  induction t generalizing k last fuel with
  | nil =>
    obtain _ | fuel := fuel
    · omega
    refine .inr ⟨last, rfl, hlast, ?_⟩
    rfl
  | node c u l r ihl ihr => ?_
  have hmk : At s k (.mk .left c u l r) := h
  have hlen : (node c u l r).toList.length = _ := length_toList_mk (d := .left)
  obtain _ | fuel := fuel
  · omega
  have hright : getChild .right u.1 s = .ok (ptr r, s) := hmk.far
  rw [insertSearch, ptr, if_neg hmk.node_proper.2, bind_ok (getData_ok hmk.data), seek]
  split_ifs with h1 h2
  · exact .inl ⟨c, u, l, r, rfl, rfl⟩
  · rw [bind_ok hmk.near]
    exact ihl (at_near.1 hmk) (if_pos h2).symm (by omega)
  · rw [bind_ok hright]
    exact ihr (at_far.1 hmk) (if_neg h2).symm (by omega)

variable (h : At s k t)
include h

variable (ht : t ≠ .nil)
include ht

theorem descend_spec (hfuel : t.toList.length ≤ fuel) :
    ∃ spine c u y, descend d fuel (ptr t) s = .ok (u.1, s) ∧ At s (spine ++ k) (.mk d c u .nil y) ∧
      fill spine (.mk d c u .nil y) = t ∧ before d spine = [] := by
  induction fuel generalizing k t with
  | zero =>
    obtain ⟨c, u, x, y, rfl⟩ := exists_mk d ht
    rw [length_toList_mk] at hfuel
    omega
  | succ fuel ih => ?_
  obtain ⟨c, u, x, y, rfl⟩ := exists_mk d ht
  rw [ptr_mk, descend, bind_ok h.near]
  by_cases hx : x = .nil
  · subst hx
    exact ⟨[], c, u, y, rfl, h, rfl, rfl⟩
  rw [if_pos (mt (ptr_eq_nil (at_near.1 h)).1 hx)]
  rw [length_toList_mk] at hfuel
  obtain ⟨spine, c', u', y', hs, hat, hfill, hbefore⟩ := ih (at_near.1 h) hx (by omega)
  refine ⟨spine ++ [⟨d, c, u, y⟩], c', u', y', hs, ?_, ?_, ?_⟩
  · rw [append_assoc]
    exact hat
  · rw [fill_append, hfill]
    rfl
  · rw [before_append, hbefore, before, if_pos rfl]
    rfl

theorem leftmostLoop_eq (q : Ptr) (fuel : ℕ) :
    leftmostLoop (fuel + 1) (ptr t) q s = descend .left fuel (ptr t) s := by
  induction fuel generalizing k t q with
  | zero =>
    obtain ⟨c, u, x, y, rfl⟩ := exists_mk .left ht
    rw [ptr_mk, leftmostLoop, if_pos h.node_proper.2, bind_ok h.near]
    rfl
  | succ fuel ih => ?_
  obtain ⟨c, u, x, y, rfl⟩ := exists_mk .left ht
  rw [ptr_mk, leftmostLoop, if_pos h.node_proper.2, bind_ok h.near, descend, bind_ok h.near]
  by_cases hx : x = .nil
  · subst hx
    rw [leftmostLoop, if_pos h.node_proper.2]
    rfl
  rw [if_pos (mt (ptr_eq_nil (at_near.1 h)).1 hx)]
  exact ih (at_near.1 h) hx u.1

/-- Up to the first node reached from the side `d`; the values after the hole come next. -/
theorem ascend_spec (hfuel : k.length < fuel) :
    (after d k = [] ∧ ascend d fuel (ptr t) s = .ok (null, s)) ∨
      ∃ k' c u x y, ascend d fuel (ptr t) s = .ok (u.1, s) ∧ At s k' (.mk d c u x y) ∧
        fill k' (.mk d c u x y) = k.fill t ∧ after d k = u :: (y.walk d ++ after d k') := by
  induction fuel generalizing k t with
  | zero => omega
  | succ fuel ih => ?_
  cases k with
  | nil =>
    rw [ascend, bind_ok (h.parent ht), above]
    exact .inl ⟨rfl, rfl⟩
  | cons f k => ?_
  obtain ⟨e, c, u, y⟩ := f
  have hp := at_near.2 h
  rw [ascend, bind_ok (h.parent ht), above, if_neg hp.node_proper.1]
  by_cases he : e = d
  · subst he
    rw [bind_ok hp.near, if_pos rfl]
    exact .inr ⟨k, c, u, t, y, rfl, hp, rfl, by rw [TreePath.after, if_pos rfl]; rfl⟩
  obtain rfl := Side.eq_other he
  have hp' := hp
  rw [mk_other] at hp'
  rw [bind_ok hp'.near, if_neg (hp.ptr_ne ht).symm, TreePath.after, if_neg he]
  have hstep := ih hp mk_ne_nil (by rw [length_cons] at hfuel; omega)
  rwa [ptr_mk] at hstep

end Pg.Rbt
