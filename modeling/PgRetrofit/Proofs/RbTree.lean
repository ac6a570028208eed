import PgRetrofit.Proofs.RbTreeDelete
import PgRetrofit.Proofs.RbTreeInsert

/-! Red-black trees as sorted lists: a tree after any sequence of insertions and deletions. -/

namespace Pg.Rbt

open RedBlack SortedList List ColorTree TreePath Nat

variable {α : Type} {rbt : RBTree α} {s : Mem α} {c : Color} {d : Side} {u : Ptr × α} {v : α}
  {x y t : Shape α} {k : Around α} {fuel : ℕ}

theorem size_of_entries (hfuel : (entries t).length < fuel) : t.toList.length < fuel := by
  rwa [entries, length_map] at hfuel

theorem At.mem_data (h : At s k t) : ∀ u ∈ t.toList, s.data u.1 = some u.2 := by
  induction t generalizing k with
  | nil => exact fun u hu => absurd hu not_mem_nil
  | node c v l r ihl ihr => ?_
  have hmk : At s k (.mk .left c v l r) := h
  intro u hu
  rcases mem_append.1 hu with hu | hu
  · exact ihl (at_near.1 hmk) u hu
  · rcases mem_cons.1 hu with rfl | hu
    · exact hmk.data
    · exact ihr (at_far.1 hmk) u hu

theorem rbtFind_spec (ho : Total rbt.comparator) (h : Valid rbt s t)
    (hfuel : (entries t).length < fuel) (v : α) :
    (rbtFind rbt fuel v s = .ok (null, s) ∧ ∀ e ∈ entries t, rbt.comparator v e ≠ 0) ∨
      ∃ k c u l r, rbtFind rbt fuel v s = .ok (u.1, s) ∧ rbt.comparator v u.2 = 0 ∧
        t = fill k (.node c u l r) := by
  have hfill : fill (seek rbt.comparator v [] t).1 (seek rbt.comparator v [] t).2 = t :=
    seek_fill _ v [] t
  have hfind : rbtFind rbt fuel v s = .ok (foundPtr (seek rbt.comparator v [] t).2, s) := by
    rw [rbtFind, bind_ok getRoot_ok, show s.root = ptr t from h.mem.around,
      findLoop_eq h.mem (size_of_entries hfuel)]
  rw [hfind]
  cases hseek : (seek rbt.comparator v [] t).2 with
  | nil =>
    refine .inl ⟨rfl, ?_⟩
    have hbetween := seek_between ho h.sorted ⟨fun _ ha => absurd ha not_mem_nil,
      fun _ ha => absurd ha not_mem_nil⟩ hseek
    rw [hseek] at hfill
    rw [← hfill, entries_fill]
    exact hbetween.cmp_ne
  | node c u l r =>
    rw [hseek] at hfill
    exact .inr ⟨_, c, u, l, r, rfl, seek_found hseek, hfill.symm⟩

theorem rbtLeftmost_spec (h : Valid rbt s t) (hfuel : (entries t).length < fuel) :
    (rbtLeftmost fuel s = .ok (null, s) ∧ entries t = []) ∨
      ∃ k c u r, rbtLeftmost fuel s = .ok (u.1, s) ∧ t = fill k (.node c u .nil r) ∧
        entriesBefore k = [] := by
  have hsize := size_of_entries hfuel
  rw [rbtLeftmost, bind_ok getRoot_ok, bind_ok getRoot_ok, show s.root = ptr t from h.mem.around]
  obtain _ | fuel := fuel
  · omega
  by_cases ht : t = .nil
  · subst ht
    refine .inl ⟨?_, rfl⟩
    rfl
  obtain ⟨spine, c, u, r, hs, -, hfill, hbefore⟩ := descend_spec h.mem ht (le_of_lt_succ hsize)
  rw [leftmostLoop_eq h.mem ht]
  refine .inr ⟨spine, c, u, r, hs, hfill.symm, ?_⟩
  rw [entriesBefore, hbefore, map_nil]

theorem rbtIterate_eq (d : Side) (p : Ptr) :
    (rbtIterate fuel ⟨d, p, false⟩ : Exec α _) = iterator fuel ⟨d, p, false⟩ := by
  cases d <;> rfl

/-- One call: the next node is the first of those after the last one, or there is none. -/
theorem rbtIterate_node (h : At s k (.mk d c u x y))
    (hfuel : (fill k (.mk d c u x y)).toList.length < fuel) :
    (y.walk d ++ after d k = [] ∧ rbtIterate fuel ⟨d, u.1, false⟩ s = .ok ((⟨d, null, true⟩, null), s)) ∨
      ∃ k' c' u' x' y', rbtIterate fuel ⟨d, u.1, false⟩ s = .ok ((⟨d, u'.1, false⟩, u'.1), s) ∧
        At s k' (.mk d c' u' x' y') ∧ fill k' (.mk d c' u' x' y') = fill k (.mk d c u x y) ∧
        y.walk d ++ after d k = u' :: (y'.walk d ++ after d k') := by
  have hlen := length_le_fill k (.mk d c u x y)
  rw [length_toList_mk] at hlen
  have hfar := h.far
  rw [rbtIterate_eq, iterator]
  rw [if_neg h.node_proper.1, bind_ok hfar]
  by_cases hy : y = .nil
  · -- the next node is further up
    subst hy
    have hup := ascend_spec (d := d) h mk_ne_nil (show k.length < fuel by omega)
    rw [ptr_mk] at hup
    rw [ptr, if_neg (not_not_intro rfl)]
    rcases hup with ⟨hafter, hup⟩ | ⟨k', c', u', x', y', hup, h', hfill, hafter⟩
    · rw [bind_ok hup]
      exact .inl ⟨by rw [hafter]; rfl, rfl⟩
    · rw [bind_ok hup, if_neg h'.node_proper.1]
      exact .inr ⟨k', c', u', x', y', rfl, h', hfill, hafter⟩
  -- the next node is the first of the other subtree
  rw [if_pos (mt (ptr_eq_nil (at_far.1 h)).1 hy), bind_ok hfar]
  obtain ⟨spine, c', u', y', hs, h', hfill, hbefore⟩ :=
    descend_spec (at_far.1 h) hy (show y.toList.length ≤ fuel by omega)
  rw [bind_ok hs]
  refine .inr ⟨_, c', u', .nil, y', rfl, h', ?_, ?_⟩
  · rw [fill_append, hfill, fill, Frame.fill, mk_other]
  · rw [← hfill, walk_fill, hbefore, walk_mk, after_append, TreePath.after, if_neg (Side.other_ne d)]
    simp [walk]

theorem iterateAll_node {calls : ℕ} (h : At s k (.mk d c u x y))
    (hfuel : (fill k (.mk d c u x y)).toList.length < fuel)
    (hcalls : (y.walk d ++ after d k).length < calls) :
    iterateAll fuel calls ⟨d, u.1, false⟩ s = .ok ((y.walk d ++ after d k).map Prod.fst, s) := by
  induction calls generalizing k c u x y with
  | zero => exact absurd hcalls (not_lt_zero _)
  | succ calls ih => ?_
  rcases rbtIterate_node h hfuel with ⟨hrest, hs⟩ | ⟨k', c', u', x', y', hs, h', hfill, hrest⟩
  · rw [iterateAll, bind_ok hs, hrest]
    rfl
  rw [hrest] at hcalls ⊢
  have hnext := ih h' (by rwa [hfill]) (lt_of_succ_lt_succ hcalls)
  rw [iterateAll, bind_ok hs]
  dsimp only
  rw [if_neg h'.node_proper.1, bind_ok hnext]
  rfl

theorem rbtWalk_spec (h : At s [] t) (hfuel : t.toList.length < fuel) (d : Side) :
    rbtWalk fuel d s = .ok ((t.walk d).map Prod.fst, s) := by
  have hroot : s.root = ptr t := h.around
  have hbegin : rbtBeginIterate d s = .ok (⟨d, null, decide (ptr t = rbtnil)⟩, s) := by
    rw [rbtBeginIterate, bind_ok getRoot_ok, hroot]
    rfl
  obtain _ | fuel := fuel
  · omega
  rw [rbtWalk, bind_ok hbegin, iterateAll]
  by_cases ht : t = .nil
  · subst ht
    rfl
  obtain ⟨spine, c, u, y, hs, h', hfill, hbefore⟩ := descend_spec h ht hfuel.le
  have hfirst : rbtIterate (fuel + 1) ⟨d, null, false⟩ s = .ok ((⟨d, u.1, false⟩, u.1), s) := by
    rw [rbtIterate_eq, iterator]
    rw [if_pos rfl, bind_ok getRoot_ok, hroot, bind_ok hs]
    rfl
  have hwalk : t.walk d = u :: (y.walk d ++ after d (spine ++ [])) := by
    rw [← hfill, walk_fill, hbefore, walk_mk, append_nil]
    rfl
  have hlength : (t.walk d).length = t.toList.length := by
    rw [walk_eq]
    cases d
    · rfl
    · exact length_reverse
  rw [hwalk, length_cons] at hlength
  have hnext : iterateAll (fuel + 1) fuel ⟨d, u.1, false⟩ s = _ :=
    iterateAll_node h' (by rwa [append_nil, hfill]) (by omega)
  rw [decide_eq_false (mt (ptr_eq_nil h).1 ht), bind_ok hfirst]
  dsimp only
  rw [if_neg h'.node_proper.1, bind_ok hnext, hwalk]
  rfl

/-- The calls that change a tree. Nodes are deleted that `rbt_find` or `rbt_leftmost` returned. -/
inductive Op (α : Type)
  | insert (x : Ptr) (data : α)
  | deleteFound (data : α)
  | deleteLeftmost

def runOp (rbt : RBTree α) (fuel : ℕ) : Op α → Exec α Unit
  | .insert x data => do
    let _ ← rbtInsert rbt fuel x data
  | .deleteFound data => do rbtDelete rbt fuel (← rbtFind rbt fuel data)
  | .deleteLeftmost => do rbtDelete rbt fuel (← rbtLeftmost fuel)

def run (rbt : RBTree α) (fuel : ℕ) : List (Op α) → Exec α Unit
  | [] => return
  | op :: ops => do
    runOp rbt fuel op
    run rbt fuel ops

def Allocates (rbt : RBTree α) (fuel : ℕ) : List (Op α) → Mem α → Prop
  | [], _ => True
  | op :: ops, s =>
    (match op with
      | .insert x _ => Fresh s x
      | _ => True) ∧
    match runOp rbt fuel op s with
      | .ok ((), s') => Allocates rbt fuel ops s'
      | .error _ => True

instance decidableAllocates (rbt : RBTree α) (fuel : ℕ) :
    (ops : List (Op α)) → (s : Mem α) → Decidable (Allocates rbt fuel ops s)
  | [], _ => isTrue trivial
  | op :: ops, s => by
    have hop : Decidable (match op with
        | .insert x _ => Fresh s x
        | _ => True) := match op with
      | .insert x _ => inferInstanceAs (Decidable (Fresh s x))
      | .deleteFound _ => isTrue trivial
      | .deleteLeftmost => isTrue trivial
    have hrest : Decidable (match runOp rbt fuel op s with
        | .ok ((), s') => Allocates rbt fuel ops s'
        | .error _ => True) := match runOp rbt fuel op s with
      | .ok ((), s') => decidableAllocates rbt fuel ops s'
      | .error _ => isTrue trivial
    exact instDecidableAnd

def Op.apply (rbt : RBTree α) : Op α → List α → List α
  | .insert _ data, l => SortedList.insert rbt.comparator rbt.combiner data l
  | .deleteFound data, l => remove rbt.comparator data l
  | .deleteLeftmost, l => l.tail

def contents (rbt : RBTree α) (ops : List (Op α)) (l : List α) : List α :=
  ops.foldl (fun l op => op.apply rbt l) l

theorem valid_create : Valid rbt (rbtCreate : Mem α) .nil where
  mem := ⟨trivial, rfl, nodup_nil, fun _ hp => absurd hp not_mem_nil, ⟨_, rfl, rfl⟩⟩
  black := rfl
  balanced := ⟨0, .nil⟩
  sorted := List.Pairwise.nil

theorem rbtDelete_null : rbtDelete rbt fuel null s = .ok ((), s) := by
  rfl

theorem insert_length (l : List α) :
    (SortedList.insert rbt.comparator rbt.combiner v l).length ≤ l.length + 1 := by
  induction l with
  | nil => exact le_rfl
  | cons e l ih =>
    rw [SortedList.insert]
    split_ifs
    · exact le_rfl
    · exact le_succ _
    · exact succ_le_succ ih

theorem apply_length (rbt : RBTree α) (op : Op α) (l : List α) :
    (op.apply rbt l).length ≤ l.length + 1 := by
  cases op with
  | insert x data => exact insert_length l
  | deleteFound data => exact (length_filter_le _ _).trans (le_succ _)
  | deleteLeftmost =>
    rw [Op.apply, length_tail]
    omega

theorem runOp_spec {op : Op α} (ho : Total rbt.comparator) (hkeep : KeepsKey rbt) (h : Valid rbt s t)
    (hfuel : (entries t).length < fuel) (hfresh : match op with
      | .insert x _ => Fresh s x
      | _ => True) :
    ∃ s' t', runOp rbt fuel op s = .ok ((), s') ∧ Valid rbt s' t' ∧
        entries t' = op.apply rbt (entries t) := by
  cases op with
  | insert x data =>
    obtain ⟨s', t', p, isNew, hs, hv, hentries, -⟩ := rbtInsert_spec ho hkeep h hfresh hfuel
    refine ⟨s', t', ?_, hv, hentries⟩
    rw [runOp, bind_ok hs]
    rfl
  | deleteFound data =>
    rcases rbtFind_spec ho h hfuel data with ⟨hs, hnone⟩ | ⟨k, c, u, l, r, hs, hcmp, ht⟩
    · refine ⟨s, t, ?_, h, (remove_absent hnone).symm⟩
      rw [runOp, bind_ok hs, rbtDelete_null]
    obtain ⟨s', t', hs', hv, hentries⟩ := rbtDelete_spec h ht hfuel
    refine ⟨s', t', ?_, hv, ?_⟩
    · rw [runOp, bind_ok hs, hs']
    · have hsorted := h.sorted
      rw [ht, entries_fill_node] at hsorted ⊢
      rw [hentries, Op.apply, remove_found (Sorted.between ho hsorted hcmp) hcmp]
  | deleteLeftmost => ?_
  rcases rbtLeftmost_spec h hfuel with ⟨hs, hnil⟩ | ⟨k, c, u, r, hs, ht, hbefore⟩
  · refine ⟨s, t, ?_, h, by rw [hnil]; rfl⟩
    rw [runOp, bind_ok hs, rbtDelete_null]
  obtain ⟨s', t', hs', hv, hentries⟩ := rbtDelete_spec h ht hfuel
  refine ⟨s', t', ?_, hv, ?_⟩
  · rw [runOp, bind_ok hs, hs']
  · rw [hentries, ht, entries_fill_node, hbefore]
    rfl

theorem run_spec (ho : Total rbt.comparator) (hkeep : KeepsKey rbt)
    (ops : List (Op α)) (h : Valid rbt s t) (hfuel : (entries t).length + ops.length < fuel)
    (halloc : Allocates rbt fuel ops s) :
    ∃ s' t', run rbt fuel ops s = .ok ((), s') ∧ Valid rbt s' t' ∧
      entries t' = contents rbt ops (entries t) ∧
      (entries t').length ≤ (entries t).length + ops.length := by
  induction ops generalizing s t with
  | nil => exact ⟨s, t, rfl, h, rfl, le_rfl⟩
  | cons op ops ih => ?_
  obtain ⟨hfresh, hrest⟩ := halloc
  rw [length_cons] at hfuel
  have hfuel1 : (entries t).length < fuel := by omega
  obtain ⟨s1, t1, hs1, h1, hentries1⟩ := runOp_spec ho hkeep h hfuel1 hfresh
  rw [hs1] at hrest
  have hlen := apply_length rbt op (entries t)
  rw [← hentries1] at hlen
  obtain ⟨s', t', hs', h', hentries', hlen'⟩ := ih h1 (by omega) hrest
  refine ⟨s', t', ?_, h', ?_, ?_⟩
  · rw [run, bind_ok hs1, hs']
  · rw [hentries', hentries1]
    rfl
  · rw [length_cons]
    omega

/-- After every sequence of calls on a new tree it is a valid red-black tree with the entries of
the sorted list. A search finds an entry exactly if there is one with the key, and an iteration
from either side returns all entries in order. -/
theorem rbt_run (rbt : RBTree α) (ho : Total rbt.comparator) (hkeep : KeepsKey rbt) (ops : List (Op α))
    (fuel : ℕ) (hfuel : ops.length < fuel) (halloc : Allocates rbt fuel ops rbtCreate) :
    ∃ s t, run rbt fuel ops rbtCreate = .ok ((), s) ∧ Valid rbt s t ∧ entries t = contents rbt ops [] ∧
      (∀ v, ∃ p, rbtFind rbt fuel v s = .ok (p, s) ∧
        (p ≠ null ↔ ∃ e ∈ contents rbt ops [], rbt.comparator v e = 0) ∧
        (p ≠ null → ∃ e ∈ contents rbt ops [], rbt.comparator v e = 0 ∧ s.data p = some e)) ∧
      (∃ ps, rbtWalk fuel .left s = .ok (ps, s) ∧ ps.map s.data = (contents rbt ops []).map some) ∧
      ∃ ps, rbtWalk fuel .right s = .ok (ps, s) ∧
        ps.map s.data = (contents rbt ops []).reverse.map some := by
  have hnil : (entries (.nil : Shape α)).length = 0 := rfl
  obtain ⟨s, t, hs, h, hentries, hlen⟩ :=
    run_spec ho hkeep ops valid_create (by rwa [hnil, Nat.zero_add]) halloc
  have hentries : entries t = contents rbt ops [] := hentries
  have hfuel' : (entries t).length < fuel := by omega
  have hsize := size_of_entries hfuel'
  have hdata : t.toList.map (s.data ∘ Prod.fst) = (contents rbt ops []).map some := by
    rw [← hentries, entries, map_map]
    exact map_congr_left fun u hu => h.mem.mem_data u hu
  refine ⟨s, t, hs, h, hentries, fun v => ?_, ⟨_, rbtWalk_spec h.mem hsize .left, ?_⟩,
    ⟨_, rbtWalk_spec h.mem hsize .right, ?_⟩⟩
  · rw [← hentries]
    rcases rbtFind_spec ho h hfuel' v with ⟨hs, hnone⟩ | ⟨k, c, u, l, r, hs, hcmp, rfl⟩
    · refine ⟨null, hs,
        ⟨fun hn => absurd rfl hn, fun hsome => hsome.elim fun e he => absurd he.2 (hnone e he.1)⟩,
          fun hn => absurd rfl hn⟩
    have hat : At s k (.mk .left c u l r) := at_fill.2 h.mem
    have hmem : u.2 ∈ entries (k.fill (.node c u l r)) := by
      rw [entries_fill_node]
      exact mem_append_right _ mem_cons_self
    exact ⟨u.1, hs, ⟨fun _ => ⟨u.2, hmem, hcmp⟩, fun _ => hat.node_proper.1⟩,
      fun _ => ⟨u.2, hmem, hcmp, hat.data⟩⟩
  · rw [map_map]
    exact hdata
  · rw [map_map, walk_eq, map_reverse, map_reverse, hdata]

/-- Trees of numbers, where a number that is there already is left as it is. -/
def numbers : RBTree ℤ := ⟨fun a b => a - b, fun old _ => old, true⟩

theorem difference_total : Total fun a b : ℤ => a - b :=
  CmpOrder.ofKey id fun a b _ _ => by
    show (a - b ≤ 0 ↔ a ≤ b) ∧ (0 ≤ a - b ↔ b ≤ a)
    omega

theorem rbt_run_numbers :
    ∃ s t, run numbers 7 [.insert 2 5, .insert 3 7, .insert 4 9, .insert 5 7, .deleteFound 7,
      .deleteLeftmost] rbtCreate = .ok ((), s) ∧ Valid numbers s t ∧ entries t = [9] := by
  obtain ⟨s, t, hs, hv, hentries, -⟩ :=
    rbt_run numbers difference_total (fun old _ _ => Int.sub_self old)
    [.insert 2 5, .insert 3 7, .insert 4 9, .insert 5 7, .deleteFound 7, .deleteLeftmost] 7
    (by decide) (by decide +kernel)
  exact ⟨s, t, hs, hv, hentries⟩

/-- A combiner that changes the key. -/
def keyChanging : RBTree ℤ := ⟨fun a b => a - b, fun _ _ => 100, true⟩

/-- With it 2 is inserted and not deleted, but it is not found. -/
theorem rbtFind_changed_key : Total keyChanging.comparator ∧
    Except.map Prod.fst ((do
      run keyChanging 4 [.insert 2 1, .insert 3 2, .insert 4 1]
      let found ← rbtFind keyChanging 4 2
      let nodes ← rbtWalk 4 .left
      let entries ← nodes.mapM getData
      return (found, entries) : Exec ℤ (Ptr × List ℤ)) rbtCreate) = .ok (null, [100, 2]) :=
  ⟨difference_total, by decide +kernel⟩

end Pg.Rbt
